import Xv6.Pipe.Calls

/-!
# Wakeups on pipes

Who sleeps on `&p->nread` or `&p->nwrite` does so rightly, or a process that holds the pipe's
lock will wake it before it gives the lock back. One exit of `pipewrite` breaks this: a killed
process that finds the pipe full returns without a `wakeup`, whatever it has stored before. In
runs without that exit no wakeup is lost.
-/

namespace Xv6.Pipe

open Lib Xv6.Proc PipeState
open Function (update update_apply update_of_ne update_self)

variable {α : Type} {s t : PipeState α} {p q n : Nat} {action : PipeAction α} {rest : List α}
  {stored : Bool} {pc : Pc α}

/-! ## Descriptors -/

/-- The end that a call uses. -/
@[simp] def Sleeper.side : Sleeper α → Bool
  | writer .. => true
  | reader _ => false

/-- The end that the call around a `wakeup` uses. -/
@[simp] def Then.side : Then α → Option Bool
  | sleep .. | wrote _ => some true
  | read .. => some false
  | closed _ => none

/-- The end that a process uses: the one it reads or writes. -/
@[simp] def Pc.side : Pc α → Option Bool
  | writeEnter .. | writeLoop .. | ret (.wrote _) => some true
  | readEnter _ | readTest _ | readLoop .. | ret (.read ..) | ret .readKilled => some false
  | wakeLock next | wake next | wakeUnlock next => next.side
  | sleepLock call | sleepUnlock call | sleepSet call | sched call | parked call | resumed call
  | tableUnlock call => some call.side
  | _ => none

/-- The end that a process is about to close, or has closed and not yet announced. -/
@[simp] def Pc.closes : Pc α → Option Bool
  | closeEnter writable | closeSet writable | wakeLock (.closed writable)
  | wake (.closed writable) | wakeUnlock (.closed writable) => some writable
  | _ => none

/-- The end that a process will mark as closed. -/
@[simp] def Pc.shuts : Pc α → Option Bool
  | closeEnter writable | closeSet writable => some writable
  | _ => none

/-- In `pipeclose`, up to its return. -/
@[simp] def Pc.inClose : Pc α → Bool
  | ret .closed => true
  | pc => pc.closes.isSome

/-- Calls are made with descriptors, and an end is closed behind the last one. -/
structure Ends (s : PipeState α) : Prop where
  uses : ∀ p writable, (s.pc p).side = some writable → p ∈ s.holders writable
  closing : ∀ p writable, (s.pc p).closes = some writable → s.holders writable = []
  readShut : s.readopen = false → s.holders false = []
  writeShut : s.writeopen = false → s.holders true = []
  gone : s.freed = true → s.readopen = false ∧ s.writeopen = false

/-- A call keeps its end. -/
theorem next_side (moves : s.next p = some t) :
    ((t.pc p).side = (s.pc p).side ∨ (t.pc p).side = none) ∧
      ((t.pc p).closes = (s.pc p).closes ∨ (t.pc p).closes = none) ∧ t.holders = s.holders ∧
      ((t.pc p).shuts = (s.pc p).shuts ∨ (t.pc p).shuts = none) ∧
      ((t.pc p).inClose = true → (s.pc p).inClose = true) ∧
      (t.freed = s.freed ∨ s.pc p = .ret .closed ∧ t.pc p = .outside ∧
        t.freed = (s.freed || !s.readopen && !s.writeopen)) := by
  unfold PipeState.next at moves
  cases here : s.pc p <;> simp only [here] at moves
  case outside => contradiction
  case writeLoop n rest stored =>
    cases moves
    cases rest with
    | nil => simp [PipeState.writeStep, goto]
    | cons byte rest =>
      unfold PipeState.writeStep
      split_ifs <;> simp [goto]
  case readTest n =>
    cases moves
    unfold PipeState.readTest
    split_ifs <;> simp [goto]
  case readLoop n i =>
    cases moves
    unfold readStep
    split_ifs <;> simp [goto]
  case closeSet writable =>
    cases moves
    cases writable <;> simp [PipeState.closeSet, goto]
  case writeEnter | readEnter | closeEnter | sleepLock | parked | killLock =>
    obtain ⟨_, ⟨⟩⟩ := Option.ite_none_right_eq_some.mp moves
    simp [goto]
  case wakeLock next =>
    obtain ⟨_, ⟨⟩⟩ := Option.ite_none_right_eq_some.mp moves
    cases next <;> simp [goto]
  case wake next =>
    cases moves
    cases next <;> simp [goto, wakeup1]
  case wakeUnlock next =>
    cases moves
    cases next <;> simp [goto, Then.next]
  case tableUnlock call =>
    cases moves
    cases call <;> simp [goto, Sleeper.again]
  case ret result =>
    cases moves
    cases result <;> simp [finish, goto]
  all_goals
    cases moves
    simp [goto, PipeState.kill]

/-- Only `pipeclose` changes the flags of the ends. -/
theorem next_flags (moves : s.next p = some t) :
    (t.readopen = s.readopen ∨ t.readopen = false ∧ s.pc p = .closeSet false ∧
      t.pc p = .wakeLock (.closed false)) ∧
    (t.writeopen = s.writeopen ∨ t.writeopen = false ∧ s.pc p = .closeSet true ∧
      t.pc p = .wakeLock (.closed true)) := by
  cases next_pipe moves with
  | same same => exact ⟨.inl same.readopen, .inl same.writeopen⟩
  | store _ _ _ _ _ _ after => subst after; exact ⟨.inl rfl, .inl rfl⟩
  | take _ _ _ _ after => subst after; exact ⟨.inl rfl, .inl rfl⟩
  | close writable here after =>
    subst after
    cases writable with
    | true => exact ⟨.inl rfl, .inr ⟨rfl, here, update_self ..⟩⟩
    | false => exact ⟨.inr ⟨rfl, here, update_self ..⟩, .inl rfl⟩

/-- Every step of a call keeps the descriptors and the ends in order. -/
theorem Ends.next (h : Ends s) (moves : s.next p = some t) : Ends t := by
  obtain ⟨side, closes, holders, -, -, freed⟩ := next_side moves
  have others : ∀ q, q ≠ p → t.pc q = s.pc q := fun q => next_pc_other moves
  have flags := next_flags moves
  have last : ∀ writable, s.pc p = .closeSet writable → s.holders writable = [] :=
    fun writable here => h.closing p writable (by rw [here]; rfl)
  constructor <;> grind [cases Ends]

/-- A process begins a call on an end it has a descriptor of. -/
theorem Ends.begin (h : Ends s) {new : Pc α}
    (uses : ∀ writable, new.side = some writable → p ∈ s.holders writable)
    (closes : ∀ writable, new.closes = some writable → s.holders writable = []) :
    Ends (s.goto p new) where
  uses q writable := by
    have := h.uses q writable
    simp only [goto, update_apply]
    grind
  closing q writable := by
    have := h.closing q writable
    simp only [goto, update_apply]
    grind
  readShut := h.readShut
  writeShut := h.writeShut
  gone := h.gone

/-- A process outside every call closes a descriptor. -/
theorem Ends.drop (h : Ends s) (here : s.pc p = .outside) (writable : Bool) :
    Ends { s with
      holders := update s.holders writable ((s.holders writable).erase p) } where
  uses q w uses := by
    grind [Pc.side, cases Ends]
  closing q w closes := by
    have := h.closing q w closes
    simp only [update_apply]
    split <;> simp_all
  readShut shut := by
    have := h.readShut shut
    simp only [update_apply]
    split <;> simp_all
  writeShut shut := by
    have := h.writeShut shut
    simp only [update_apply]
    split <;> simp_all
  gone := h.gone

/-- A process with a descriptor of an end, which is therefore open, gives one to another. -/
theorem Ends.share (h : Ends s) (writable : Bool) (holds : p ∈ s.holders writable) :
    Ends { s with
      holders := update s.holders writable (q :: s.holders writable) } := by
  constructor <;> grind [cases Ends]

/-- Every step keeps the descriptors and the ends in order. -/
theorem Ends.step (h : Ends s) (moves : pipeStep s (p, action) = some t) : Ends t := by
  unfold pipeStep at moves
  simp only at moves
  split at moves
  · exact h.next moves
  · obtain ⟨holds, ⟨⟩⟩ := Option.ite_none_right_eq_some.mp moves
    exact h.begin (by simpa using holds) (by simp)
  · obtain ⟨holds, ⟨⟩⟩ := Option.ite_none_right_eq_some.mp moves
    exact h.begin (by simpa using holds) (by simp)
  · rename_i writable here
    obtain ⟨holds, ⟨⟩⟩ := Option.ite_none_right_eq_some.mp moves
    have dropped := h.drop here writable
    unfold PipeState.close
    simp only
    split
    · rename_i last
      exact dropped.begin (by simp) (by simp [last])
    · exact dropped
  · obtain ⟨holds, ⟨⟩⟩ := Option.ite_none_right_eq_some.mp moves
    exact h.share _ holds
  · cases moves
    exact h.begin (by simp) (by simp)
  · contradiction

/-- The creator of a pipe has both its ends. -/
theorem Ends.init (data : Nat → α) (creator : Nat) : Ends (initPipe data creator) where
  uses p writable := by simp [initPipe]
  closing p writable := by simp [initPipe]
  readShut := by simp [initPipe]
  writeShut := by simp [initPipe]
  gone := by simp [initPipe]

/-! ## Closing -/

/-- Each end is closed once, and behind the `kfree` nobody is left in `pipeclose`. -/
structure Closing (s : PipeState α) : Prop where
  read : ∀ p, (s.pc p).shuts = some false → s.readopen = true
  write : ∀ p, (s.pc p).shuts = some true → s.writeopen = true
  once : ∀ p q writable, (s.pc p).shuts = some writable → (s.pc q).shuts = some writable → p = q
  idle : s.freed = true → ∀ p, (s.pc p).inClose = false

/-- A process in `pipeclose` has not marked its end yet, or holds the lock. -/
theorem shuts_or_holdsLock (inside : pc.inClose = true) :
    (∃ writable, pc.shuts = some writable) ∨ pc.holdsLock = true := by
  unfold Pc.inClose Pc.closes at inside
  grind [Pc.shuts, Pc.holdsLock]

/-- Outside of `pipeclose`. -/
theorem inClose_eq_false (outside : pc.inClose = false) : pc.closes = none ∧ pc ≠ .ret .closed := by
  constructor
  · unfold Pc.inClose at outside
    split at outside
    · contradiction
    · simpa using outside
  · rintro rfl
    contradiction

/-- A step of a call keeps the closing in order. -/
theorem Closing.next (h : Closing s) (locked : Locked s) (moves : s.next p = some t) :
    Closing t := by
  obtain ⟨-, -, -, shuts, inClose, freed⟩ := next_side moves
  have others : ∀ q, q ≠ p → t.pc q = s.pc q := fun q => next_pc_other moves
  have flags := next_flags moves
  refine ⟨fun q here => ?_, fun q here => ?_, fun q r writable => ?_, fun gone q => ?_⟩
  · grind [Pc.shuts, cases Closing]
  · grind [Pc.shuts, cases Closing]
  · grind [cases Closing]
  · rw [Bool.eq_false_iff]
    intro inside
    rcases freed with same | ⟨here, outside, now⟩
    · grind [cases Closing]
    -- the process that frees the pipe has the lock, and both ends are marked
    by_cases mine : q = p
    · rw [mine, outside] at inside
      contradiction
    rw [others q mine] at inside
    have holds : (s.pc p).holdsLock = true := by rw [here]; rfl
    rcases shuts_or_holdsLock inside with ⟨writable, marks⟩ | locks
    · cases writable <;> grind [cases Closing]
    · exact mine (locked.lock.exclusive locks holds)

/-- Every step keeps the closing in order. -/
theorem Closing.step (h : Closing s) (locked : Locked s) (ends : Ends s)
    (moves : pipeStep s (p, action) = some t) : Closing t := by
  obtain ⟨-, moves⟩ | ⟨-, begins⟩ := pipeStep_cases moves
  · exact h.next locked moves
  obtain ⟨new, pc, kind⟩ := begins.pc
  have others : ∀ q, q ≠ p → t.pc q = s.pc q := fun q other => by
    rw [pc, update_of_ne other]
  have mine : t.pc p = new := by rw [pc, update_self]
  have quiet : (∀ writable, new ≠ .closeEnter writable) →
      new.shuts = none ∧ new.inClose = false := by
    cases new <;> simp_all [Pc.Begins, Pc.closes]
  have fresh : ∀ writable, new = .closeEnter writable → p ∈ s.holders writable :=
    fun writable same => begins.ends writable (mine.trans same)
  have closing : ∀ q writable, (s.pc q).shuts = some writable → s.holders writable = [] := by
    intro q writable shuts
    apply ends.closing q
    cases here : s.pc q <;> simp_all [Pc.shuts]
  have shut := And.intro ends.readShut ends.writeShut
  have flags := And.intro begins.pipe.readopen begins.pipe.writeopen
  refine ⟨fun q here => ?_, fun q here => ?_, fun q r writable first second => ?_, fun gone q => ?_⟩
  · grind [Pc.shuts, cases Closing]
  · grind [Pc.shuts, cases Closing]
  · grind [Pc.shuts, cases Closing]
  · have ended : s.freed = true := begins.freed ▸ gone
    have empty : ∀ writable, s.holders writable = [] := by
      obtain ⟨read, write⟩ := ends.gone ended
      exact Bool.forall_bool.mpr ⟨ends.readShut read, ends.writeShut write⟩
    by_cases same : q = p
    · rw [same, mine]
      exact (quiet fun writable made => by simpa [empty] using fresh writable made).2
    · rw [others q same]
      exact h.idle ended q

/-- Nobody closes a new pipe. -/
theorem Closing.init (data : Nat → α) (creator : Nat) : Closing (initPipe data creator) where
  read p := by simp [initPipe]
  write p := by simp [initPipe]
  once p q writable := by simp [initPipe]
  idle := by simp [initPipe]

/-! ## Sleepers -/

/-- The channel that a process is about to wake before it gives the lock back. -/
@[simp] def Pc.wakes : Pc α → Option Chan
  | writeLoop _ _ true => some .nread
  | readLoop .. => some .nwrite
  | wakeLock next | wake next => some next.chan
  | _ => none

/-- A process sleeps on a channel, or is about to and holds `ptable.lock`. -/
def PipeState.Sleeps (s : PipeState α) (p : Nat) (chan : Chan) : Prop :=
  ∃ call : Sleeper α, call.chan = chan ∧
    (s.pc p = .sleepSet call ∨
      s.state p = .sleeping ∧ (s.pc p = .sched call ∨ s.pc p = .parked call))

/-- Who sleeps is in `sleep`, on the channel of its call. -/
def Asleep (s : PipeState α) : Prop :=
  ∀ p, s.state p = .sleeping → ∃ call : Sleeper α,
    (s.pc p = .sched call ∨ s.pc p = .parked call) ∧ s.chan p = some call.chan

/-- Who sleeps does so rightly, or will be woken. -/
def Covered (s : PipeState α) : Prop :=
  ∀ p chan, s.Sleeps p chan → s.Waits chan ∨ ∃ q, (s.pc q).wakes = some chan

/-- Who is going to wake somebody holds the lock. -/
theorem holdsLock_of_wakes {chan : Chan} (wakes : pc.wakes = some chan) : pc.holdsLock := by
  cases pc <;> simp_all [Pc.holdsLock]

/-- A step keeps the cover if it adds no sleeper that sleeps wrongly, and if what it ends, a
reason to sleep or the intent to wake, is followed by that intent or concerns nobody. -/
theorem Covered.keep (h : Covered s) (others : ∀ q, q ≠ p → t.pc q = s.pc q)
    (sleeps : ∀ q chan, t.Sleeps q chan → s.Sleeps q chan ∨ t.Waits chan)
    (waits : ∀ chan, s.Waits chan → t.Waits chan ∨ (t.pc p).wakes = some chan)
    (wakes : ∀ chan, (s.pc p).wakes = some chan →
      (t.pc p).wakes = some chan ∨ ∀ q, ¬t.Sleeps q chan) : Covered t := by
  grind [Covered]

/-- Sleepers are where they should be and are not forgotten. -/
structure Sleeping (s : PipeState α) : Prop where
  asleep : Asleep s
  covered : Covered s

/-- Counters at which a process may be asleep. -/
def Pc.rests : Pc α → Bool
  | sched _ | parked _ => true
  | _ => false

namespace Sleeping

variable (h : Sleeping s) {call : Sleeper α} {old new : Pc α}

include h

/-- A process that is not at rest is not asleep. -/
theorem awake (here : (s.pc p).rests = false) : s.state p ≠ .sleeping := by
  intro sleeping
  obtain ⟨call, place | place, _⟩ := h.asleep p sleeping <;> simp [place, Pc.rests] at here

/-- A process that is awake moves on, and does not fall asleep by that. -/
theorem move (here : s.pc p = old) (awake : old.rests = false) (pc : t.pc = update s.pc p new)
    (state : ∀ q, t.state q = .sleeping → s.state q = .sleeping)
    (chan : ∀ q, q ≠ p → t.chan q = s.chan q)
    (set : ∀ call, new = .sleepSet call → t.Waits call.chan)
    (waits : ∀ chan, s.Waits chan → t.Waits chan ∨ new.wakes = some chan)
    (wakes : ∀ chan, old.wakes = some chan → new.wakes = some chan ∨ ∀ q, ¬t.Sleeps q chan) :
    Sleeping t := by
  have off := h.awake (here ▸ awake)
  have own : t.pc p = new := by rw [pc, update_self]
  have others : ∀ q, q ≠ p → t.pc q = s.pc q := fun q other => by
    rw [pc, update_of_ne other]
  refine ⟨fun q sleeping => ?_, h.covered.keep others (fun q ch asleep => ?_) (own ▸ waits) ?_⟩
  · have other : q ≠ p := by
      rintro rfl
      exact off (state q sleeping)
    rw [others q other, chan q other]
    exact h.asleep q (state q sleeping)
  all_goals grind [PipeState.Sleeps]

/-- A process that is awake moves on, without a change of the pipe. -/
theorem plain (here : s.pc p = old) (awake : old.rests = false)
    (pc : t.pc = update s.pc p new) (same : SamePipe s t)
    (state : ∀ q, t.state q = .sleeping → s.state q = .sleeping)
    (chan : ∀ q, q ≠ p → t.chan q = s.chan q)
    (set : ∀ call, new = .sleepSet call → s.Waits call.chan)
    (wakes : ∀ chan, old.wakes = some chan → new.wakes = some chan) : Sleeping t :=
  h.move here awake pc state chan (fun call goes => (same.waits _).mpr (set call goes))
    (fun chan waits => .inl ((same.waits chan).mpr waits)) fun chan wake => .inl (wakes chan wake)

/-- A process that is awake moves on, and at most takes a lock or gives one back. -/
theorem advance {lock table : Option Nat} {freed : Bool} (here : s.pc p = old)
    (awake : old.rests = false) (set : ∀ call, new = .sleepSet call → s.Waits call.chan)
    (wakes : ∀ chan, old.wakes = some chan → new.wakes = some chan) :
    Sleeping { s.goto p new with lock := lock, table := table, freed := freed } :=
  h.plain here awake rfl (by constructor <;> rfl) (fun _ => id) (fun _ _ => rfl) set wakes

/-- A byte is stored: who waits for one will be woken, and nobody waits for room. -/
theorem store {byte : α} (here : s.pc p = .writeLoop n (byte :: rest) stored) (room : ¬s.Full) :
    Sleeping { s.goto p (.writeLoop n rest true) with
      data := update s.data (s.nwrite % pipeSize) byte
      nwrite := uint (s.nwrite + 1)
      stored := s.stored ++ [byte] } := by
  refine h.move here rfl rfl (fun _ => id) (fun _ _ => rfl) (by simp) (fun chan waits => ?_)
    fun chan wake => .inl ?_
  · cases chan with
    | nread => exact .inr rfl
    | nwrite => exact absurd waits.1 room
  · cases stored <;> simp_all [Pc.wakes]

/-- A byte is handed out: who waits for room will be woken, and nobody waits for a byte. -/
theorem take {i : Nat} (here : s.pc p = .readLoop n i) (more : ¬s.Empty) :
    Sleeping { s.goto p (.readLoop n (i + 1)) with
      nread := uint (s.nread + 1)
      handed := s.handed ++ [s.data (s.nread % pipeSize)] } := by
  refine h.move here rfl rfl (fun _ => id) (fun _ _ => rfl) (by simp) (fun chan waits => ?_)
    fun chan wake => .inl wake
  cases chan with
  | nread => exact absurd waits.1 more
  | nwrite => exact .inr rfl

/-- An end is closed: who waits for the other side will be woken. -/
theorem close {writable : Bool} (here : s.pc p = .closeSet writable) :
    Sleeping (s.closeSet p writable) := by
  cases writable with
  | true =>
    refine h.move here rfl rfl (fun _ => id) (fun _ _ => rfl) (by simp) (fun chan waits => ?_)
      (by simp)
    cases chan with
    | nread => exact .inr rfl
    | nwrite => exact .inl waits
  | false =>
    refine h.move here rfl rfl (fun _ => id) (fun _ _ => rfl) (by simp) (fun chan waits => ?_)
      (by simp)
    cases chan with
    | nread => exact .inl waits
    | nwrite => exact .inr rfl

/-- `wakeup1` with both locks held: nobody sleeps on the channel, and nobody is about to. -/
theorem wake (locked : Locked s) {next : Then α} (here : s.pc p = .wake next) :
    Sleeping ((s.goto p (.wakeUnlock next)).wakeup1 next.chan) := by
  have fewer : ∀ q, ((s.goto p (.wakeUnlock next)).wakeup1 next.chan).state q = .sleeping →
      s.state q = .sleeping ∧ s.chan q ≠ some next.chan := by
    intro q sleeping
    change (if s.state q = .sleeping ∧ s.chan q = some next.chan then ProcState.runnable
      else s.state q) = .sleeping at sleeping
    by_cases woken : s.state q = .sleeping ∧ s.chan q = some next.chan
    · simp [woken] at sleeping
    · rw [if_neg woken] at sleeping
      exact ⟨sleeping, fun on => woken ⟨sleeping, on⟩⟩
  refine h.move here rfl rfl (fun q sleeping => (fewer q sleeping).1) (fun _ _ => rfl) (by simp)
    (fun chan waits => .inl waits) fun chan wake => .inr fun q asleep => ?_
  obtain rfl : next.chan = chan := by simpa using wake
  obtain ⟨call, on, place⟩ := asleep
  by_cases same : q = p
  · subst same
    simp [wakeup1, goto] at place
  · have pc : ((s.goto p (.wakeUnlock next)).wakeup1 next.chan).pc q = s.pc q :=
      update_of_ne same ..
    rw [pc] at place
    obtain place | ⟨sleeping, place⟩ := place
    · -- It would hold `ptable.lock` together with the process that wakes.
      exact same (locked.table.exclusive (by simp [place, Pc.holdsTable])
        (by simp [here, Pc.holdsTable]))
    · obtain ⟨other, place', own⟩ := h.asleep q (fewer q sleeping).1
      have equal : other = call := by grind
      exact (fewer q sleeping).2 (by rw [own, equal, on])

/-- `p->state = SLEEPING`. -/
theorem sleepSet (here : s.pc p = .sleepSet call) :
    Sleeping { s.goto p (.sched call) with
      state := update s.state p .sleeping
      chan := update s.chan p (some call.chan) } where
  asleep q sleeping := by
    by_cases same : q = p
    · subst same
      exact ⟨call, .inl (by simp [goto]), by simp⟩
    · have := h.asleep q (by simpa [update_of_ne same] using sleeping)
      simpa [goto, update_of_ne same] using this
  covered := by
    refine h.covered.keep (p := p) (fun q other => update_of_ne other ..)
      (fun q chan asleep => .inl ?_) (fun chan waits => .inl waits)
      fun chan wake => by simp [here] at wake
    obtain ⟨other, on, place⟩ := asleep
    by_cases same : q = p
    · subst same
      simp only [goto, update_self] at place
      obtain rfl : call = other := by simpa using place
      exact ⟨call, on, .inl here⟩
    · refine ⟨other, on, ?_⟩
      simpa [goto, update_of_ne same] using place

/-- The scheduler releases `ptable.lock` for a process that has called `sched`. -/
theorem sched (here : s.pc p = .sched call) :
    Sleeping { s.goto p (.parked call) with table := none } where
  asleep q sleeping := by
    obtain ⟨other, place, on⟩ := h.asleep q sleeping
    by_cases same : q = p
    · subst same
      obtain rfl : call = other := by simpa [here] using place
      exact ⟨call, .inr (by simp [goto]), on⟩
    · exact ⟨other, by simpa [goto, update_of_ne same] using place, on⟩
  covered := by
    refine h.covered.keep (p := p) (fun q other => update_of_ne other ..)
      (fun q chan asleep => .inl ?_) (fun chan waits => .inl waits)
      fun chan wake => by simp [here] at wake
    obtain ⟨other, on, place⟩ := asleep
    by_cases same : q = p
    · subst same
      simp only [goto, update_self] at place
      grind [PipeState.Sleeps]
    · exact ⟨other, on, by simpa [goto, update_of_ne same] using place⟩

/-- A process that was made runnable continues. -/
theorem resume (here : s.pc p = .parked call) (runnable : s.state p = .runnable) :
    Sleeping { s.goto p (.resumed call) with
      table := some p
      state := update s.state p .running } := by
  have fewer : ∀ q, update s.state p .running q = .sleeping →
      q ≠ p ∧ s.state q = .sleeping := by
    intro q sleeping
    by_cases same : q = p
    · simp [same] at sleeping
    · exact ⟨same, by simpa [update_of_ne same] using sleeping⟩
  refine ⟨fun q sleeping => ?_, ?_⟩
  · obtain ⟨other, sleeping⟩ := fewer q sleeping
    simpa [goto, update_of_ne other] using h.asleep q sleeping
  · refine h.covered.keep (p := p) (fun q other => update_of_ne other ..)
      (fun q chan asleep => .inl ?_) (fun chan waits => .inl waits)
      fun chan wake => by simp [here] at wake
    obtain ⟨call', on, place⟩ := asleep
    by_cases same : q = p
    · subst same
      simp [goto] at place
    · exact ⟨call', on, by simpa [goto, update_of_ne same] using place⟩

end Sleeping

/-- The exit of `pipewrite` that wakes nobody is not taken after a byte was stored: a process
that has stored a byte since it took the lock, and then finds the pipe full with the read end
open, is not killed. -/
def WakesFirst (s : PipeState α) (event : Nat × PipeAction α) : Prop :=
  match event.2, s.pc event.1 with
  | .next, .writeLoop _ (_ :: _) true => s.Full → s.readopen = true → s.killed event.1 = false
  | _, _ => True

/-- Nobody reads a pipe whose read end is closed. -/
theorem Ends.no_reader (h : Ends s) (shut : s.readopen = false) : ¬s.Sleeps q .nread := by
  rintro ⟨call, on, place⟩
  have side : call.side = false := by cases call <;> simp_all [Sleeper.chan, Sleeper.side]
  grind [Pc.side, cases Ends]

namespace Sleeping

variable (h : Sleeping s)

include h

/-- An iteration of `pipewrite`: it wakes the readers before it sleeps or returns. -/
theorem writeStep (ends : Ends s) (here : s.pc p = .writeLoop n rest stored)
    (first : WakesFirst s (p, .next)) : Sleeping (s.writeStep p n rest) := by
  cases rest with
  | nil =>
    refine h.advance here rfl (by simp) fun chan wake => ?_
    cases stored <;> simp_all [Then.chan]
  | cons byte rest =>
    unfold PipeState.writeStep
    split_ifs with full gone
    · -- The exit without a wakeup: the process has stored nothing, or there is no reader.
      refine h.move here rfl rfl (fun _ => id) (fun _ _ => rfl) (by simp)
        (fun chan waits => .inl waits) fun chan wake => .inr fun q asleep => ?_
      cases stored with
      | false => simp at wake
      | true =>
        obtain rfl : .nread = chan := by simpa using wake
        simp only [WakesFirst, here] at first
        have shut : s.readopen = false := by
          rcases gone with shut | killed
          · exact shut
          · by_contra isOpen
            simp [first full (by simpa using isOpen)] at killed
        have after : Ends (s.goto p (.ret (.wrote (-1)))) := ends.begin
          (fun writable side => ends.uses p writable (by rw [here]; exact side))
          (by simp)
        exact after.no_reader shut asleep
    · refine h.advance here rfl (by simp) fun chan wake => ?_
      cases stored <;> simp_all [Then.chan]
    · exact h.store here full

/-- Every step of a call keeps the sleepers in order. -/
theorem next (locked : Locked s) (knowing : Knowing s) (ends : Ends s)
    (first : WakesFirst s (p, .next)) (moves : s.next p = some t) : Sleeping t := by
  have knows := knowing p
  unfold PipeState.next at moves
  cases here : s.pc p <;> simp only [here] at moves knows
  case outside => contradiction
  case writeLoop n rest stored =>
    cases moves
    exact h.writeStep ends here first
  case readTest n =>
    cases moves
    unfold PipeState.readTest
    split_ifs <;> exact h.advance here rfl (by simp) (by simp)
  case readLoop n i =>
    cases moves
    unfold readStep
    split_ifs with done
    · exact h.advance here rfl (by simp) fun chan wake => wake
    · exact h.take here fun empty => done (.inr empty)
  case closeSet writable =>
    cases moves
    exact h.close here
  case writeEnter | readEnter | closeEnter | sleepLock | killLock =>
    obtain ⟨_, ⟨⟩⟩ := Option.ite_none_right_eq_some.mp moves
    exact h.advance here rfl (by simp) (by simp)
  case wakeLock next =>
    obtain ⟨_, ⟨⟩⟩ := Option.ite_none_right_eq_some.mp moves
    exact h.advance here rfl (by simp) fun chan wake => wake
  case wake next =>
    cases moves
    exact h.wake locked here
  case wakeUnlock after | tableUnlock after =>
    cases moves
    refine h.advance here rfl ?_ (by simp)
    cases after <;> simp [Then.next, Sleeper.again]
  case sleepUnlock call =>
    cases moves
    refine h.advance here rfl ?_ (by simp)
    rintro _ ⟨⟩
    exact knows
  case sleepSet call =>
    cases moves
    exact h.sleepSet here
  case sched call =>
    cases moves
    exact h.sched here
  case parked call =>
    obtain ⟨⟨runnable, _⟩, ⟨⟩⟩ := Option.ite_none_right_eq_some.mp moves
    exact h.resume here runnable
  case resumed call =>
    cases moves
    exact h.plain here rfl rfl (by constructor <;> rfl) (fun _ => id)
      (fun q other => update_of_ne other ..) (by simp) (by simp)
  case ret | unlock =>
    cases moves
    exact h.advance here rfl (by simp) (by simp)
  case kill target =>
    cases moves
    refine h.plain here rfl rfl (by constructor <;> rfl) (fun q sleeping => ?_) (fun _ _ => rfl)
      (by simp) (by simp)
    simp only [PipeState.kill, goto] at sleeping
    grind [update_apply]

/-- Every step keeps the sleepers in order. -/
theorem step (locked : Locked s) (knowing : Knowing s) (ends : Ends s)
    (first : WakesFirst s (p, action)) (moves : pipeStep s (p, action) = some t) : Sleeping t := by
  obtain ⟨rfl, moves⟩ | ⟨_, begins⟩ := pipeStep_cases moves
  · exact h.next locked knowing ends first moves
  · obtain ⟨new, pc, start⟩ := begins.pc
    refine h.plain begins.here rfl pc begins.pipe (fun q => by rw [begins.state]; exact id)
      (fun q _ => by rw [begins.chan]) ?_ (by simp)
    rintro call rfl
    exact start.elim

omit h in
/-- Nobody sleeps on a new pipe. -/
theorem init (data : Nat → α) (creator : Nat) : Sleeping (initPipe data creator) where
  asleep p sleeping := by simp [initPipe] at sleeping
  covered p chan asleep := by
    obtain ⟨call, _, place⟩ := asleep
    simp [initPipe] at place

end Sleeping

/-! ## Every run -/

/-- After `pipeclose` has freed the pipe no process is in a call on it: none reads or writes, and
none is in `pipeclose`. -/
theorem freed_unused (data : Nat → α) (creator : Nat) {allowed}
    (reached : Reach pipeStep allowed (initPipe data creator) s) (freed : s.freed = true)
    (p : Nat) : (s.pc p).side = none ∧ (s.pc p).closes = none ∧ s.pc p ≠ .ret .closed := by
  have all : Locked s ∧ Ends s ∧ Closing s :=
    reached.invariant (fun s => Locked s ∧ Ends s ∧ Closing s)
      ⟨.init data creator, .init data creator, .init data creator⟩
      fun _ _ _ ⟨locked, ends, closing⟩ _ moves =>
        ⟨locked.step moves, ends.step moves, closing.step locked ends moves⟩
  obtain ⟨-, ends, closing⟩ := all
  obtain ⟨readShut, writeShut⟩ := ends.gone freed
  refine ⟨?_, inClose_eq_false (closing.idle freed p)⟩
  cases side : (s.pc p).side with
  | none => rfl
  | some writable =>
    have member := ends.uses p writable side
    cases writable
    · simp [ends.readShut readShut] at member
    · simp [ends.writeShut writeShut] at member

/-- The creator closes both ends. -/
theorem freed_unused_closed : ∃ s : PipeState Nat, s.freed = true ∧
    (s.pc 0).side = none ∧ (s.pc 0).closes = none ∧ s.pc 0 ≠ .ret .closed := by
  obtain ⟨s, reached, freed⟩ :
      ∃ s, Reach pipeStep (fun _ _ => True) (initPipe (fun _ => 0) 0) s ∧ s.freed = true :=
    exists_reach ((0, .close false) :: List.replicate 6 (0, .next) ++
      (0, .close true) :: List.replicate 6 (0, .next)) (by decide +kernel)
  exact ⟨s, freed, freed_unused _ 0 reached freed 0⟩

/-- In a run without the exit of `pipewrite` that wakes nobody after a byte was stored, whenever
the pipe's lock is free nobody sleeps on `&p->nread` while there is a byte or the write end is
closed, and nobody sleeps on `&p->nwrite` while there is room or the read end is closed. -/
theorem pipe_no_lost_wakeup (data : Nat → α) (creator : Nat)
    (reached : Reach pipeStep WakesFirst (initPipe data creator) s) (free : s.lock = none) :
    (¬∃ p, s.state p = .sleeping ∧ s.chan p = some .nread ∧
      (s.nread ≠ s.nwrite ∨ s.writeopen = false)) ∧
    ¬∃ p, s.state p = .sleeping ∧ s.chan p = some .nwrite ∧
      (s.nwrite ≠ uint (s.nread + pipeSize) ∨ s.readopen = false) := by
  have all : (Locked s ∧ Knowing s) ∧ Ends s ∧ Sleeping s := by
    refine reached.invariant (fun s => (Locked s ∧ Knowing s) ∧ Ends s ∧ Sleeping s)
      ⟨⟨.init data creator, .init data creator⟩, .init data creator, .init data creator⟩ ?_
    rintro s ⟨p, action⟩ later ⟨⟨locked, knowing⟩, ends, sleeping⟩ first moves
    exact ⟨⟨locked.step moves, knowing.step locked moves⟩, ends.step moves,
      sleeping.step locked knowing ends first moves⟩
  obtain ⟨⟨locked, _⟩, _, sleeping⟩ := all
  have unlocked : Guards none (fun pc => pc.holdsLock) s.pc := free ▸ locked.lock
  have right : ∀ p chan, s.state p = .sleeping → s.chan p = some chan → s.Waits chan := by
    intro p chan asleep on
    obtain ⟨call, place, own⟩ := sleeping.asleep p asleep
    have same : call.chan = chan := Option.some.inj (own.symm.trans on)
    obtain waits | ⟨q, waker⟩ := sleeping.covered p chan ⟨call, same, .inr ⟨asleep, place⟩⟩
    · exact waits
    · exact absurd (holdsLock_of_wakes waker) unlocked.not_holds
  constructor
  · rintro ⟨p, asleep, on, wrong⟩
    obtain ⟨empty, isOpen⟩ := right p _ asleep on
    rcases wrong with wrong | wrong
    · exact wrong empty
    · simp [wrong] at isOpen
  · rintro ⟨p, asleep, on, wrong⟩
    obtain ⟨full, isOpen⟩ := right p _ asleep on
    rcases wrong with wrong | wrong
    · exact wrong full
    · simp [wrong] at isOpen

instance (s : PipeState α) (event : Nat × PipeAction α) : Decidable (WakesFirst s event) := by
  unfold WakesFirst
  split <;> infer_instance

/-- Process 1 gets the read end and goes to sleep in `piperead`. -/
def readerSleeps : List (Nat × PipeAction Nat) :=
  (0, .share false 1) :: (1, .read 1) :: List.replicate 6 (1, .next)

/-- The reader sleeps on an empty pipe. -/
theorem pipe_no_lost_wakeup_reader : ∃ s : PipeState Nat, s.lock = none ∧ s.state 1 = .sleeping ∧
    s.chan 1 = some .nread ∧ ¬∃ p, s.state p = .sleeping ∧ s.chan p = some .nread ∧
      (s.nread ≠ s.nwrite ∨ s.writeopen = false) := by
  obtain ⟨s, reached, free, asleep, on⟩ :
      ∃ s, Reach pipeStep WakesFirst (initPipe (fun _ => 0) 0) s ∧ s.lock = none ∧
        s.state 1 = .sleeping ∧ s.chan 1 = some .nread :=
    exists_reach readerSleeps (by decide +kernel)
  exact ⟨s, free, asleep, on, (pipe_no_lost_wakeup _ 0 reached free).1⟩

/-- Process 0 writes 513 bytes. When it has filled the pipe process 2 kills it, and it returns. -/
def killedWriter : List (Nat × PipeAction Nat) :=
  readerSleeps ++ (0, .write (List.replicate 513 7)) :: List.replicate 513 (0, .next) ++
    (2, .kill 0) :: List.replicate 3 (2, .next) ++ [(0, .next), (0, .next)]

/-- The reader still sleeps on `&p->nread`, and the pipe is full. -/
theorem killed_writer_forgets_reader : ∃ s : PipeState Nat,
    Reach pipeStep (fun _ _ => True) (initPipe (fun _ => 0) 0) s ∧ s.lock = none ∧
    s.state 1 = .sleeping ∧ s.chan 1 = some .nread ∧ s.nread ≠ s.nwrite :=
  exists_reach killedWriter (by decide +kernel)

end Xv6.Pipe
