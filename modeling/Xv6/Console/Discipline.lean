import Mathlib.Data.List.Infix
import Xv6.Console.Calls
import Xv6.Lib.Fifo

/-!
# The line discipline of the console

`Text` says what a terminal is for, without a ring: characters are committed in lines, the line
being typed can be edited, and readers consume what is committed. The ring holds the committed
characters that are not consumed yet, and behind them the line; what readers have got is a
prefix of what was committed.
-/

namespace Xv6.Console

open Function Lib List

/-- What has been typed. -/
structure Text where
  /-- The characters that can no longer be edited. -/
  committed : List UInt8
  /-- The line that is being typed. -/
  line : List UInt8
  /-- The number of committed characters that readers have consumed. -/
  consumed : Nat

/-- A character is typed. At most `INPUT_BUF` characters are kept for readers: then the line is
committed although it has not ended, and further characters are dropped. -/
def Text.type (text : Text) (typed : UInt8) : Text :=
  if typed = ctrl 'P' then text
  else if typed = ctrl 'U' then { text with line := [] }
  else if typed = ctrl 'H' ∨ typed = delete then { text with line := text.line.dropLast }
  else if typed ≠ 0 ∧ text.committed.length - text.consumed + text.line.length < inputBuf then
    let c := if typed = carriage then newline else typed
    let line := text.line ++ [c]
    if c = newline ∨ c = ctrl 'D' ∨
        text.committed.length - text.consumed + line.length = inputBuf then
      { text with committed := text.committed ++ line, line := [] }
    else { text with line := line }
  else text

/-- The committed characters that an entry consumes: a control-D is not delivered but makes a read
of some bytes return 0. -/
def Entry.taken : Entry → List UInt8
  | typed _ => []
  | delivered _ c => [c]
  | returned _ target value => if 0 < target ∧ value = 0 then [ctrl 'D'] else []

/-- What readers have consumed. -/
def taken (log : List Entry) : List UInt8 := log.flatMap Entry.taken

/-- The effect of an entry on the text. -/
def Text.after (text : Text) : Entry → Text
  | .typed c => text.type c
  | entry => { text with consumed := text.consumed + entry.taken.length }

/-- The text after what has happened. -/
def text (log : List Entry) : Text := log.foldl Text.after ⟨[], [], 0⟩

/-- The number of bytes that the current read of a process has got: those delivered to it since
its last read returned. -/
def got (p : Nat) (log : List Entry) : Nat :=
  log.foldl (fun n entry =>
    match entry with
    | .typed _ => n
    | .delivered q _ => if q = p then n + 1 else n
    | .returned q _ _ => if q = p then 0 else n) 0

variable {log : List Entry} {entry : Entry} {c : UInt8} {p q target n : Nat} {value : Int}

@[simp] theorem taken_append : taken (log ++ [entry]) = taken log ++ entry.taken := by
  simp [taken]

@[simp] theorem text_append : text (log ++ [entry]) = (text log).after entry := by
  simp [text]

@[simp] theorem got_typed : got p (log ++ [.typed c]) = got p log := by
  simp [got]

@[simp] theorem got_delivered :
    got p (log ++ [.delivered q c]) = if q = p then got p log + 1 else got p log := by
  simp [got]

@[simp] theorem got_returned :
    got p (log ++ [.returned q target value]) = if q = p then 0 else got p log := by
  simp [got]

theorem inputBuf_dvd : inputBuf ∣ 2 ^ 32 := ⟨2 ^ 25, by decide⟩

theorem inputBuf_lt : inputBuf < 2 ^ 32 := by decide

/-- The ring holds `unread`, the committed characters that no reader has consumed, and `line`. -/
structure Ring (input : Input) (unread line : List UInt8) : Prop where
  holds : Fifo.Holds inputBuf (2 ^ 32) input.buf input.r input.e (unread ++ line)
  write : input.w = (input.r + unread.length) % 2 ^ 32
  /-- A line that has ended is committed. -/
  open_ : newline ∉ line

namespace Ring

variable {input : Input} {unread line : List UInt8} (h : Ring input unread line)

include h

theorem unread_length : diff input.w input.r = unread.length := by
  have bound := h.holds.bound
  rw [length_append] at bound
  rw [h.write]
  exact Fifo.distance_advance h.holds.start (by have := inputBuf_lt; omega)

theorem length : diff input.e input.r = unread.length + line.length := by
  rw [← length_append]
  exact h.holds.distance inputBuf_lt

/-- The edit index is as far ahead of the write index as the line is long. -/
theorem line_length : diff input.e input.w = line.length := by
  have bound := h.holds.bound
  rw [length_append] at bound
  have below : input.w < 2 ^ 32 := by
    rw [h.write]
    exact Nat.mod_lt _ (Nat.two_pow_pos 32)
  have ahead : input.e = (input.w + line.length) % 2 ^ 32 := by
    rw [h.write, Nat.mod_add_mod, add_assoc, ← length_append]
    exact h.holds.stop
  rw [ahead]
  exact Fifo.distance_advance below (by have := inputBuf_lt; omega)

theorem edit_eq_write_iff : input.e = input.w ↔ line = [] := by
  constructor
  · grind [h.line_length, diff, length_eq_zero_iff]
  · rintro rfl
    rw [h.holds.stop, h.write, append_nil]

theorem read_eq_write_iff : input.r = input.w ↔ unread = [] := by
  constructor
  · grind [h.unread_length, diff, length_eq_zero_iff]
  · rintro rfl
    rw [h.write]
    exact (Nat.mod_eq_of_lt h.holds.start).symm

omit h in
/-- The last character of the line is removed. -/
theorem erase (h : Ring input unread (line ++ [c])) :
    input.buf (diff input.e 1 % inputBuf) = c ∧
      Ring { input with e := diff input.e 1 } unread line := by
  have holds := h.holds
  rw [← append_assoc] at holds
  obtain ⟨last, back⟩ := holds.unpush
  exact ⟨last, back, h.write, fun member => h.open_ (mem_append_left _ member)⟩

/-- Control-U removes the line and nothing else, and its loop ends. -/
theorem killLine : input.killLine line.length = { input with e := input.w } := by
  induction line using reverseRecOn generalizing input with
  | nil =>
    obtain ⟨buf, r, w, e⟩ := input
    obtain rfl : e = w := h.edit_eq_write_iff.mpr rfl
    rfl
  | append_singleton line c ih =>
    obtain ⟨last, back⟩ := h.erase
    have more : input.e ≠ input.w := fun same =>
      absurd (h.edit_eq_write_iff.mp same) (by simp)
    have other : input.buf (diff input.e 1 % inputBuf) ≠ newline := by
      rw [last]
      rintro rfl
      exact h.open_ (by simp)
    rw [length_append, length_singleton, Input.killLine, if_pos ⟨more, other⟩, ih back]

/-- The line is removed. -/
theorem kill : Ring { input with e := input.w } unread [] where
  holds := by
    rw [append_nil]
    change Fifo.Holds _ _ _ _ input.w _
    rw [h.write]
    exact h.holds.cut
  write := h.write
  open_ := by simp

/-- Backspace removes the last character of the line, if there is one. -/
theorem backspace : Ring (if input.e ≠ input.w then ({ input with e := diff input.e 1 }, false)
      else (input, false)).1 unread line.dropLast := by
  induction line using reverseRecOn with
  | nil =>
    rw [if_neg (not_not.mpr (h.edit_eq_write_iff.mpr rfl))]
    exact h
  | append_singleton line c =>
    have more : input.e ≠ input.w := fun same =>
      absurd (h.edit_eq_write_iff.mp same) (by simp)
    rw [if_pos more, dropLast_concat]
    exact h.erase.2

/-- A character that no reader has to wait for is stored. -/
theorem push (room : unread.length + line.length < inputBuf) (other : c ≠ newline) :
    Ring { input with
      buf := update input.buf (input.e % inputBuf) c
      e := uint (input.e + 1) } unread (line ++ [c]) where
  holds := by
    rw [← append_assoc]
    exact h.holds.push inputBuf_dvd (by simpa using room)
  write := h.write
  open_ member := by
    rcases mem_append.mp member with inside | last
    · exact h.open_ inside
    · exact other (List.mem_singleton.mp last).symm

/-- A character is stored and the line is committed. -/
theorem commit (room : unread.length + line.length < inputBuf) :
    Ring { input with
      buf := update input.buf (input.e % inputBuf) c
      w := uint (input.e + 1)
      e := uint (input.e + 1) } (unread ++ (line ++ [c])) [] := by
  have holds : Fifo.Holds inputBuf (2 ^ 32) (update input.buf (input.e % inputBuf) c)
      input.r (uint (input.e + 1)) (unread ++ line ++ [c]) :=
    h.holds.push inputBuf_dvd (by simpa using room)
  constructor <;> grind [cases Lib.Fifo.Holds]

omit h in
/-- A reader takes the first character. -/
theorem pop (h : Ring input (c :: unread) line) :
    input.buf (input.r % inputBuf) = c ∧
      Ring { input with r := uint (input.r + 1) } unread line := by
  obtain ⟨first, rest⟩ := h.holds.pop inputBuf_dvd
  refine ⟨first, rest, ?_, h.open_⟩
  change input.w = ((input.r + 1) % 2 ^ 32 + unread.length) % 2 ^ 32
  rw [h.write, Nat.mod_add_mod, length_cons, add_assoc, add_comm 1]

end Ring

/-- The ring holds what the log says has been typed and not consumed. -/
structure Stored (input : Input) (log : List Entry) : Prop where
  ring : ∃ unread, (text log).committed = taken log ++ unread ∧
    Ring input unread (text log).line
  consumed : (text log).consumed = (taken log).length
  visible : ∀ p, .delivered p (ctrl 'D') ∉ log

namespace Stored

variable {input : Input}

/-- A character is typed. -/
theorem type (h : Stored input log) : Stored (input.type c).1 (log ++ [.typed c]) := by
  obtain ⟨unread, split, ring⟩ := h.ring
  have left : (text log).committed.length - (text log).consumed = unread.length := by
    rw [split, h.consumed, length_append, Nat.add_sub_cancel_left]
  suffices ∃ added, (((text log).type c).committed = (text log).committed ++ added ∧
      Ring (input.type c).1 (unread ++ added) ((text log).type c).line) ∧
      ((text log).type c).consumed = (text log).consumed by
    constructor <;> grind [text_append, taken_append, Text.after, Entry.taken, cases Stored]
  -- the cases of the `switch`
  unfold Text.type Input.type
  split
  · exact ⟨[], ⟨by simp, by simpa using ring⟩, rfl⟩
  split
  · refine ⟨[], ⟨by simp, ?_⟩, rfl⟩
    rw [ring.line_length, ring.killLine, append_nil]
    exact ring.kill
  split
  · refine ⟨[], ⟨by simp, ?_⟩, rfl⟩
    rw [append_nil]
    exact ring.backspace
  rw [left, Input.store, ring.length]
  split
  · rename_i room
    have full : uint (input.e + 1) = uint (input.r + inputBuf) ↔
        unread.length + ((text log).line.length + 1) = inputBuf := by
      have pushed := (ring.commit (c := 0) room.2).holds.full_iff inputBuf_lt
      simpa [uint] using pushed
    simp only [length_append, length_singleton, full]
    generalize (if c = carriage then newline else c) = kept
    split
    · exact ⟨_, ⟨rfl, ring.commit room.2⟩, rfl⟩
    · rename_i goes
      refine ⟨[], ⟨by simp, ?_⟩, rfl⟩
      rw [append_nil]
      exact ring.push room.2 fun same => goes (.inl same)
  · exact ⟨[], ⟨by simp, by simpa using ring⟩, rfl⟩

/-- An entry that consumes the first unread character. -/
theorem consume (h : Stored input log) (more : input.r ≠ input.w)
    (silent : ∀ typed, entry ≠ .typed typed)
    (first : entry.taken = [input.buf (input.r % inputBuf)])
    (hidden : ∀ p, entry ≠ .delivered p (ctrl 'D')) :
    Stored { input with r := uint (input.r + 1) } (log ++ [entry]) := by
  obtain ⟨unread, split, ring⟩ := h.ring
  have after : (text log).after entry =
      { text log with consumed := (text log).consumed + entry.taken.length } := by
    cases entry with
    | typed typed => exact absurd rfl (silent typed)
    | delivered p c => rfl
    | returned p target value => rfl
  cases unread with
  | nil => exact absurd (ring.read_eq_write_iff.mpr rfl) more
  | cons c unread =>
    constructor <;> grind [ring.pop, text_append, taken_append, cases Stored]

/-- A read returns without consuming a control-D. -/
theorem returned (h : Stored input log) (kept : target = 0 ∨ value ≠ 0) :
    Stored input (log ++ [.returned p target value]) := by
  constructor <;> grind [Entry.taken, text, Text.after, taken_append, cases Stored]

end Stored

/-- The bytes that a read has got and those it still asks for. -/
def Pc.Reading : Pc → Nat → Prop
  | outside, got => got = 0
  | enter target n, got | loop target n, got | asleep target n, got => got + n = target

/-- Every read has got the bytes it counts, and has returned their number. -/
structure Readers (pc : Nat → Pc) (log : List Entry) : Prop where
  reading : ∀ p, (pc p).Reading (got p log)
  returns : ∀ before after p target (value : Int),
    log = before ++ .returned p target value :: after → value = -1 ∨ value = got p before

namespace Readers

variable {pc later : Nat → Pc}

/-- Readers go to other places, and nothing happens that concerns them. -/
theorem move (h : Readers pc log)
    (moved : ∀ p k, (pc p).Reading k → (later p).Reading k) : Readers later log :=
  ⟨fun p => moved p _ (h.reading p), h.returns⟩

/-- What is new in the log is not a return. -/
theorem extend (h : Readers pc log) (silent : ∀ p target value, entry ≠ .returned p target value)
    (reading : ∀ p, (later p).Reading (got p (log ++ [entry]))) :
    Readers later (log ++ [entry]) := by
  refine ⟨reading, fun before after p target value split => ?_⟩
  rcases eq_nil_or_concat after with rfl | ⟨rest, last, rfl⟩
  all_goals grind [List.append_inj', cases Readers]

/-- A reader returns. -/
theorem finish (h : Readers pc log) (right : value = -1 ∨ value = got p log) :
    Readers (update pc p .outside) (log ++ [.returned p target value]) := by
  refine ⟨fun q => ?_, fun before after q other result split => ?_⟩
  · grind [got_returned, Pc.Reading, cases Readers]
  · rcases eq_nil_or_concat after with rfl | ⟨rest, last, rfl⟩
    all_goals grind [List.append_inj', cases Readers]

end Readers

/-- What holds in every state. -/
structure Inv (s : State) : Prop where
  stored : Stored s.input s.log
  readers : Readers s.pc s.log

namespace Inv

variable {s t : State}

/-- A step that touches neither `input` nor the log. -/
theorem quiet (h : Inv s) (input : t.input = s.input) (log : t.log = s.log)
    (moved : ∀ p k, (s.pc p).Reading k → (t.pc p).Reading k) : Inv t :=
  ⟨by rw [input, log]; exact h.stored, by rw [log]; exact h.readers.move moved⟩

theorem reading_update {pc : Nat → Pc} {place : Pc}
    (same : ∀ k, (pc p).Reading k → place.Reading k) (q k : Nat) (reading : (pc q).Reading k) :
    (update pc p place q).Reading k := by
  rcases eq_or_ne q p with rfl | ne
  · rw [update_self]
    exact same k reading
  · rwa [update_of_ne ne]

theorem finish (h : Inv s) (kept : target = 0 ∨ value ≠ 0)
    (right : value = -1 ∨ value = got p s.log) : Inv (s.finish p target value) :=
  ⟨h.stored.returned kept, h.readers.finish right⟩

/-- A reader takes a character. -/
theorem take (h : Inv s) (here : s.pc p = .loop target n) (wanted : n ≠ 0)
    (more : s.input.r ≠ s.input.w) : Inv (s.take p target n) := by
  have reading := h.readers.reading p
  rw [here] at reading
  change got p s.log + n = target at reading
  rw [State.take]
  generalize first : s.input.buf (s.input.r % inputBuf) = c
  simp only
  split
  · rename_i control
    subst control
    split
    · -- the control-D stays in the ring
      rename_i behind
      obtain ⟨_, _, ring⟩ := h.stored.ring
      have back : diff (uint (s.input.r + 1)) 1 = s.input.r := by
        rw [diff, uint, Fifo.retreat (Nat.two_pow_pos 32), Nat.mod_eq_of_lt ring.holds.start]
      rw [back]
      exact h.finish (.inr (by omega)) (.inr (by omega))
    · have zero : (target : Int) - n = 0 := by omega
      refine ⟨h.stored.consume more (by simp) ?_ (by simp), h.readers.finish (.inr (by omega))⟩
      rw [first, zero, Entry.taken, if_pos ⟨by omega, rfl⟩]
  · rename_i other
    have stored : Stored { s.input with r := uint (s.input.r + 1) }
        (s.log ++ [.delivered p c]) := by
      refine h.stored.consume more (by simp) (by rw [first, Entry.taken]) fun q same => ?_
      exact other (Entry.delivered.inj same).2
    have readers : Readers (update s.pc p (.loop target (n - 1)))
        (s.log ++ [.delivered p c]) := by
      refine h.readers.extend (by simp) fun q => ?_
      rw [got_delivered]
      rcases eq_or_ne p q with rfl | ne
      · rw [if_pos rfl, update_self]
        change got p s.log + 1 + (n - 1) = target
        omega
      · rw [if_neg ne, update_of_ne ne.symm]
        exact h.readers.reading q
    split
    · refine ⟨stored.returned (.inr (by omega)), ?_⟩
      have counted : (target : Int) - (n - 1 : Nat) = got p (s.log ++ [.delivered p c]) := by
        rw [got_delivered, if_pos rfl]
        omega
      change Readers (update s.pc p .outside) (s.log ++ [.delivered p c] ++ [_])
      rw [← update_idem (Pc.loop target (n - 1)) Pc.outside s.pc]
      exact readers.finish (.inr counted)
    · exact ⟨stored, readers⟩

/-- One step of a reader. -/
theorem next (h : Inv s) (moves : s.next p = some t) : Inv t := by
  unfold State.next at moves
  split at moves
  · exact absurd moves (by simp)
  · exact absurd moves (by simp)
  · rename_i target n here
    split at moves
    · cases moves
      refine h.quiet rfl rfl (reading_update fun k reading => ?_)
      rwa [here] at reading
    · exact absurd moves (by simp)
  · rename_i target n here
    have reading := h.readers.reading p
    rw [here] at reading
    change got p s.log + n = target at reading
    split at moves
    · cases moves
      exact h.finish (by omega) (.inr (by omega))
    split at moves
    · split at moves
      · cases moves
        exact h.finish (.inr (by decide)) (.inl rfl)
      · cases moves
        refine h.quiet rfl rfl (reading_update fun k reading => ?_)
        rwa [here] at reading
    · rename_i wanted more
      cases moves
      exact h.take here wanted more

theorem wakeup_reading (s : State) (q k : Nat) (reading : (s.pc q).Reading k) :
    (s.wakeup.pc q).Reading k := by
  rw [State.wakeup]
  dsimp only
  split
  · rename_i target n here
    rwa [here] at reading
  · exact reading

/-- One step of the system. -/
theorem step (h : Inv s) {event : Event} (moves : step s event = some t) : Inv t := by
  cases event with
  | interrupt =>
    constructor <;> grind [Console.step, cases Inv]
  | getc c =>
    rw [Console.step] at moves
    split at moves
    · have typed : Inv { s with input := (s.input.type c).1, log := s.log ++ [.typed c] } := by
        refine ⟨h.stored.type, h.readers.extend (by simp) fun q => ?_⟩
        rw [got_typed]
        exact h.readers.reading q
      have after : t = if (s.input.type c).2 then
          State.wakeup { s with input := (s.input.type c).1, log := s.log ++ [.typed c] }
          else { s with input := (s.input.type c).1, log := s.log ++ [.typed c] } :=
        (Option.some.inj moves).symm
      rw [after]
      split
      · exact typed.quiet rfl rfl (wakeup_reading _)
      · exact typed
    · exact absurd moves (by simp)
  | done =>
    constructor <;> grind [Console.step, cases Inv]
  | read p n =>
    rw [Console.step] at moves
    split at moves
    · rename_i outside
      cases moves
      refine h.quiet rfl rfl (reading_update fun k reading => ?_)
      rw [outside] at reading
      change k + n = n
      change k = 0 at reading
      omega
    · exact absurd moves (by simp)
  | next p => exact h.next moves
  | kill p =>
    rw [Console.step] at moves
    split at moves
    · rename_i target n here
      cases moves
      refine h.quiet rfl rfl (reading_update fun k reading => ?_)
      change (s.pc p) = _ at here
      rwa [here] at reading
    · cases moves
      exact h.quiet rfl rfl fun _ _ reading => reading

theorem boot : Inv boot where
  stored := ⟨⟨[], rfl, .nil _ (Nat.two_pow_pos 32), rfl, by simp [text, Console.boot]⟩, rfl,
    by simp [Console.boot]⟩
  readers := ⟨fun _ => rfl, fun before after p target value split => by
    exact absurd split (by simp [Console.boot])⟩

end Inv

namespace Ring

variable {input : Input} {unread line rest : List UInt8}

/-- The edit characters leave everything but the edit index alone, which goes back, but never
behind the write index. -/
theorem edit (ring : Ring input unread line) (editing : Editing c) :
    ∃ e, (input.type c).1 = { input with e := e } ∧
      diff input.w input.r ≤ diff e input.r ∧ diff e input.r ≤ diff input.e input.r := by
  have shorter : ∀ {e rest}, Ring { input with e := e } unread rest → rest.length ≤ line.length →
      diff input.w input.r ≤ diff e input.r ∧ diff e input.r ≤ diff input.e input.r := by
    intro e rest later short
    have length : diff e input.r = unread.length + rest.length := later.length
    rw [ring.unread_length, ring.length, length]
    omega
  rcases editing with rfl | back
  · refine ⟨input.w, ?_, shorter ring.kill (by simp)⟩
    rw [Input.type, if_neg (by decide), if_pos rfl, ring.line_length, ring.killLine]
  · have other : c ≠ ctrl 'P' ∧ c ≠ ctrl 'U' := by
      rcases back with rfl | rfl <;> decide
    rw [Input.type, if_neg other.1, if_neg other.2, if_pos back]
    have erased := ring.backspace
    split at erased
    · rename_i more
      rw [if_pos more]
      exact ⟨_, rfl, shorter erased (by simp)⟩
    · rename_i none
      rw [if_neg none]
      exact ⟨input.e, rfl, shorter ring le_rfl⟩

end Ring

/-- In every run of interrupts and reads the indices stay in order and at most a ring apart; the
edit characters remove nothing below the write index; what readers have consumed, the bytes
delivered to them and a control-D for each read of some bytes that returned 0, is a prefix of the
committed characters; no control-D is delivered; and a read that is not killed returns the number
of bytes delivered to it. -/
theorem console_line_discipline {s : State} (reached : Reach step (fun _ _ => True) boot s) :
    (diff s.input.w s.input.r ≤ diff s.input.e s.input.r ∧
      diff s.input.e s.input.r ≤ inputBuf) ∧
    (∀ c, Editing c → ∃ e, (s.input.type c).1 = { s.input with e := e } ∧
      diff s.input.w s.input.r ≤ diff e s.input.r ∧
      diff e s.input.r ≤ diff s.input.e s.input.r) ∧
    taken s.log <+: (text s.log).committed ∧
    (∀ p, .delivered p (ctrl 'D') ∉ s.log) ∧
    ∀ before after p target (value : Int),
      s.log = before ++ .returned p target value :: after → value = -1 ∨ value = got p before := by
  have inv : Inv s := reached.invariant Inv Inv.boot fun _ _ _ inv _ moves => inv.step moves
  obtain ⟨unread, split, ring⟩ := inv.stored.ring
  refine ⟨⟨?_, ?_⟩, fun c editing => ring.edit editing, ⟨unread, split.symm⟩,
    inv.stored.visible, inv.readers.returns⟩
  · rw [ring.unread_length, ring.length]
    omega
  · rw [ring.length, ← length_append]
    exact ring.holds.bound

/-- "hi", a backspace and control-D are typed; a read returns "h" and the next one returns 0. -/
def typeAndRead : List Event :=
  [.interrupt, .getc 104, .getc 105, .getc (ctrl 'H'), .getc (ctrl 'D'), .done,
    .read 0 5, .next 0, .next 0, .next 0, .read 0 5, .next 0, .next 0]

theorem console_line_discipline_typeAndRead : ∃ s : State,
    s.log = [.typed 104, .typed 105, .typed (ctrl 'H'), .typed (ctrl 'D'), .delivered 0 104,
      .returned 0 5 1, .returned 0 5 0] ∧
    (text s.log).committed = [104, ctrl 'D'] ∧ taken s.log <+: (text s.log).committed := by
  obtain ⟨s, reached, log, committed⟩ : ∃ s, Reach step (fun _ _ => True) boot s ∧
      s.log = [.typed 104, .typed 105, .typed (ctrl 'H'), .typed (ctrl 'D'), .delivered 0 104,
        .returned 0 5 1, .returned 0 5 0] ∧ (text s.log).committed = [104, ctrl 'D'] :=
    exists_reach typeAndRead (by decide +kernel)
  exact ⟨s, log, committed, (console_line_discipline reached).2.2.1⟩

end Xv6.Console
