import Xv6.User.Ezsh

/-!
# The history of `ezsh`

A session of lines typed at the shell, with what each line executes. `history` holds pointers: the
`&` at the end of a name is cut off the stored word, so that a replay runs in the foreground, and
a line `#k` is stored before entry `k` is looked up, so that it finds itself where `k` is the
number it gets. All other replays execute what the command executed when it was entered.
-/

namespace Xv6.User.Ezsh

open Function Lib Option List

/-- The words of a line, where `parsecmd` has room for them. -/
structure Typed where
  name : List Char
  args : List (List Char)
  deriving DecidableEq

/-- What a line executes. -/
structure Executed where
  name : List Char
  args : List (List Char)
  background : Bool
  deriving DecidableEq

/-- The shell, the lines typed so far, and what they executed. -/
structure Session where
  shell : Shell
  typed : List Typed
  firsts : List (Option Executed)

namespace Session

/-- A line is read and executed. -/
def line (s : Session) (typed : Typed) : Option Session := do
  let shell ← s.shell.read (some typed.name)
  let lines := s.typed ++ [typed]
  match shell.pc, shell.history shell.commandNum with
  | .fork background, some command =>
    let executed := ⟨shell.names.getD command [], (lines.getD command ⟨[], []⟩).args, background⟩
    some ⟨shell.next none, lines, s.firsts ++ [some executed]⟩
  | _, _ => some ⟨shell, lines, s.firsts ++ [none]⟩

/-- Before the first line. -/
def start : Session := ⟨Ezsh.start, [], []⟩

end Session

/-- The line `#k`. -/
def replay (k : Nat) : Typed := ⟨'#' :: digits k, []⟩

/-- Command `c` was executed when it was entered; its name is stored as it was typed, or has lost
an ampersand. -/
def Entry (s : Session) (c : Nat) : Prop :=
  ∃ typed name first, s.typed[c]? = some typed ∧ s.shell.names[c]? = some name ∧
    s.firsts[c]? = some (some first) ∧
    (typed.name.getLast? ≠ some '&' → name = typed.name ∧ name ≠ "exit".toList ∧
      first = ⟨typed.name, typed.args, false⟩) ∧
    (typed.name.getLast? = some '&' → first.background = true ∧ name.length ≤ first.name.length)

/-- Every entry of the history is a command that was executed, or the `cd` just typed. -/
structure Recorded (s : Session) : Prop where
  number : s.shell.commandNum < historySize
  ring : ∀ k c, s.shell.history k = some c → k < historySize
  names : s.shell.names.length = s.typed.length
  firsts : s.firsts.length = s.typed.length
  entries : ∀ k c, s.shell.history k = some c →
    Entry s c ∨ k = s.shell.commandNum ∧ s.firsts[c]? = some none ∧
      ∃ typed, s.typed[c]? = some typed ∧ typed.name = "cd".toList

/-- The command that a line makes the shell execute, unless it is `cd`. -/
def chosen (sh : Shell) (name : List Char) : Option Nat :=
  if name.head? = some '#' then
    entry (update sh.history sh.commandNum (some sh.names.length)) (atoi name.tail)
  else some sh.names.length

/-- The stored word behind the execution of a command. -/
def cut (name : List Char) : List Char :=
  if name.getLast? = some '&' then name.dropLast else name

theorem Shell.enter_eq (sh : Shell) (name : List Char) : sh.enter name =
    if name = "cd".toList then some { sh with
      names := sh.names ++ [name]
      history := update sh.history sh.commandNum (some sh.names.length)
      pc := .prompt none }
    else (chosen sh name).map fun command =>
      let word := (sh.names ++ [name]).getD command []
      { sh with
        names := (sh.names ++ [name]).set command (cut word)
        history := update sh.history sh.commandNum (some command)
        pc := if cut word = "exit".toList then .exit else .fork (word.getLast? == some '&') } := by
  rw [Shell.enter]
  split
  · rfl
  · dsimp only
    rw [chosen]
    generalize (if name.head? = some '#' then _ else _ : Option Nat) = choice
    cases choice with
    | none => rfl
    | some command => simp [cut, update_idem]

/-- A line. -/
theorem Session.line_cases {s t : Session} {typed : Typed} (moves : s.line typed = some t) :
    ∃ child, s.shell.pc = .prompt child ∧ t.typed = s.typed ++ [typed] ∧
    (typed.name = "cd".toList ∧ t.shell.names = s.shell.names ++ [typed.name] ∧
      t.shell.history =
        update s.shell.history s.shell.commandNum (some s.shell.names.length) ∧
      t.shell.commandNum = s.shell.commandNum ∧ t.firsts = s.firsts ++ [none] ∨
    ∃ command, typed.name ≠ "cd".toList ∧ chosen s.shell typed.name = some command ∧
      (cut ((s.shell.names ++ [typed.name]).getD command []) = "exit".toList ∧
        t.shell.pc = .exit ∧ t.firsts = s.firsts ++ [none] ∨
      cut ((s.shell.names ++ [typed.name]).getD command []) ≠ "exit".toList ∧
      t.shell.names = (s.shell.names ++ [typed.name]).set command
        (cut ((s.shell.names ++ [typed.name]).getD command [])) ∧
      t.shell.history = update s.shell.history s.shell.commandNum (some command) ∧
      t.shell.commandNum = (s.shell.next none).commandNum ∧
      t.firsts = s.firsts ++ [some ⟨t.shell.names.getD command [],
        (t.typed.getD command ⟨[], []⟩).args,
        ((s.shell.names ++ [typed.name]).getD command []).getLast? == some '&'⟩])) := by
  obtain ⟨shell, reads, moves⟩ := bind_eq_some_iff.mp moves
  unfold Shell.read at reads
  cases place : s.shell.pc with
  | prompt child =>
    refine ⟨child, rfl, ?_⟩
    simp only [place, Shell.enter_eq] at reads
    split at reads
    · rename_i cd
      cases reads
      cases moves
      exact ⟨rfl, .inl ⟨cd, rfl, rfl, rfl, rfl⟩⟩
    · rename_i other
      obtain ⟨command, found, rfl⟩ := map_eq_some_iff.mp reads
      simp only [update_self] at moves
      by_cases ends : cut ((s.shell.names ++ [typed.name]).getD command []) = "exit".toList
      · rw [if_pos ends] at moves
        cases moves
        exact ⟨rfl, .inr ⟨command, other, found, .inl ⟨ends, rfl, rfl⟩⟩⟩
      · rw [if_neg ends] at moves
        cases moves
        exact ⟨rfl, .inr ⟨command, other, found, .inr ⟨ends, rfl, rfl, rfl, rfl⟩⟩⟩
  | _ => simp [place] at reads

theorem Session.exists_line {s : Session} {typed : Typed} {child : Option Nat} {command : Nat}
    (prompt : s.shell.pc = .prompt child) (other : typed.name ≠ "cd".toList)
    (found : chosen s.shell typed.name = some command) : ∃ t, s.line typed = some t := by
  rw [Session.line]
  unfold Shell.read
  simp only [prompt, Shell.enter_eq, if_neg other, found, map_some, bind_eq_bind,
    bind_some]
  split <;> exact ⟨_, rfl⟩

theorem cut_length (name : List Char) : (cut name).length ≤ name.length ∧
    (name.getLast? = some '&' → (cut name).length < name.length) := by
  rw [cut]
  split
  · rename_i last
    have := length_pos_of_mem (mem_of_getLast? last)
    rw [length_dropLast]
    omega
  · rename_i other
    exact ⟨le_rfl, fun last => absurd last other⟩

section Line

variable {s t : Session} {typed : Typed} {c command : Nat} {x : Option Executed} {name : List Char}

theorem Entry.lt (entry : Entry s c) : c < s.shell.names.length := by
  obtain ⟨typed, name, first, one, two, rest⟩ := entry
  exact (List.getElem?_eq_some_iff.mp two).1

/-- A command is still as it was. -/
theorem Entry.keep (entry : Entry s c) (lines : t.typed = s.typed ++ [typed])
    (firsts : t.firsts = s.firsts ++ [x]) (names : t.shell.names[c]? = s.shell.names[c]?) :
    Entry t c := by
  obtain ⟨typed', name, first, one, two, three, rest⟩ := entry
  refine ⟨typed', name, first, ?_, names.trans two, ?_, rest⟩
  · rw [lines]
    exact getElem?_append_left (List.getElem?_eq_some_iff.mp one).1 ▸ one
  · rw [firsts]
    exact getElem?_append_left (List.getElem?_eq_some_iff.mp three).1 ▸ three

/-- The command that a line chooses is the line itself or one that was executed. -/
theorem Recorded.chosen (recorded : Recorded s) (found : chosen s.shell name = some command) :
    command = s.typed.length ∨ Entry s command := by
  have names := recorded.names
  rw [Ezsh.chosen, entry, update_apply] at found
  split_ifs at found with _ _ here
  · exact .inl (names ▸ (Option.some.inj found).symm)
  · rcases recorded.entries _ _ found with entry | ⟨now, -⟩
    · exact .inr entry
    · exact absurd now here
  · exact .inl (names ▸ (Option.some.inj found).symm)

/-- A line that is executed for the first time. -/
theorem entry_new (lines : t.typed = s.typed ++ [typed]) (before : s.typed.length = c)
    (stored : t.shell.names[c]? = some (cut typed.name)) (goes : cut typed.name ≠ "exit".toList)
    (first : t.firsts[c]? =
      some (some ⟨cut typed.name, typed.args, typed.name.getLast? == some '&'⟩)) :
    Entry t c := by
  refine ⟨typed, _, _, by simp [lines, ← before], stored, first, fun other => ?_, fun last => ?_⟩
  · have same : cut typed.name = typed.name := if_neg other
    exact ⟨same, goes, by simp [same, other]⟩
  · exact ⟨by simp [last], le_rfl⟩

/-- A command that is executed again. -/
theorem Entry.again (entry : Entry s c) (lines : t.typed = s.typed ++ [typed])
    (firsts : t.firsts = s.firsts ++ [x]) (word : s.shell.names[c]? = some name)
    (stored : t.shell.names[c]? = some (cut name)) : Entry t c := by
  obtain ⟨typed', name', first, one, two, three, plain, ampersand⟩ := entry
  obtain rfl := Option.some.inj (two.symm.trans word)
  refine ⟨typed', _, first, ?_, stored, ?_, fun other => ?_, fun last => ?_⟩
  · rw [lines, getElem?_append_left (List.getElem?_eq_some_iff.mp one).1, one]
  · rw [firsts, getElem?_append_left (List.getElem?_eq_some_iff.mp three).1, three]
  · obtain ⟨rfl, goes, first⟩ := plain other
    have same : cut typed'.name = typed'.name := if_neg other
    exact ⟨same, same.symm ▸ goes, first⟩
  · exact ⟨(ampersand last).1, (cut_length name').1.trans (ampersand last).2⟩

/-- An entry is made under a number of the ring. -/
theorem Recorded.update (recorded : Recorded s) {k : Nat}
    (entry : update s.shell.history s.shell.commandNum (some command) k = some c) :
    k < historySize := by
  by_cases here : k = s.shell.commandNum
  · exact here ▸ recorded.number
  · rw [update_of_ne here] at entry
    exact recorded.ring k c entry

/-- Every line keeps the history. -/
theorem Recorded.line (recorded : Recorded s) (moves : s.line typed = some t)
    (runs : t.shell.pc ≠ .exit) : Recorded t := by
  obtain ⟨child, -, lines, ⟨cd, names, history, number, firsts⟩ | ⟨command, other, found,
    ⟨-, exits, -⟩ | ⟨goes, names, history, number, firsts⟩⟩⟩ := Session.line_cases moves
  · refine ⟨number ▸ recorded.number, fun k c entry => recorded.update (history ▸ entry),
      by simp [names, lines, recorded.names], by simp [firsts, lines, recorded.firsts], ?_⟩
    intro k c entry
    rw [history] at entry
    by_cases here : k = s.shell.commandNum
    · subst here
      rw [update_self] at entry
      cases entry
      refine .inr ⟨number.symm, ?_, typed, ?_, cd⟩
      · simp [firsts, recorded.names, recorded.firsts]
      · simp [lines, recorded.names]
    · rw [update_of_ne here] at entry
      rcases recorded.entries k c entry with entry | ⟨last, -⟩
      · refine .inl (entry.keep lines firsts ?_)
        rw [names, getElem?_append_left entry.lt]
      · exact absurd last here
  · exact absurd exits runs
  · refine ⟨?_, fun k c entry => recorded.update (history ▸ entry),
      by simp [names, lines, recorded.names], by simp [firsts, lines, recorded.firsts], ?_⟩
    · have before := recorded.number
      rw [number, Shell.next]
      dsimp only
      split
      · decide
      · omega
    -- the command that was executed, which may be the line itself
    have here : Entry t command := by
      rcases recorded.chosen found with rfl | entry
      · have word : (s.shell.names ++ [typed.name]).getD s.typed.length [] = typed.name := by
          simp [← recorded.names]
        rw [word] at names goes firsts
        refine entry_new lines rfl ?_ goes ?_
        · simp [names, recorded.names]
        · simp [firsts, ← recorded.firsts, names, lines, recorded.names]
      · have word := getElem?_eq_getElem entry.lt
        refine entry.again lines firsts word ?_
        have bound := entry.lt
        rw [names, getElem?_set_self (by simp; omega), getD_eq_getElem?_getD,
          getElem?_append_left bound, word]
        rfl
    intro k c entry
    rw [history] at entry
    by_cases last : k = s.shell.commandNum
    · subst last
      rw [update_self] at entry
      exact .inl (Option.some.inj entry ▸ here)
    · rw [update_of_ne last] at entry
      by_cases same : c = command
      · exact .inl (same ▸ here)
      · rcases recorded.entries k c entry with entry | ⟨now, -⟩
        · refine .inl (entry.keep lines firsts ?_)
          rw [names, getElem?_set_ne (Ne.symm same), getElem?_append_left entry.lt]
        · exact absurd now last

end Line

theorem recorded_of_reach {s : Session} {child : Option Nat}
    (reached : Reach Session.line (fun _ _ => True) Session.start s)
    (prompt : s.shell.pc = .prompt child) : Recorded s := by
  refine reached.invariant (fun s => s.shell.pc ≠ .exit → Recorded s)
    (fun _ => ⟨by decide, nofun, rfl, rfl, nofun⟩) ?_ (by simp [prompt])
  intro s typed t recorded _ moves
  obtain ⟨child, prompt, -⟩ := Session.line_cases moves
  exact (recorded (by simp [prompt])).line moves

/-- `#k` finds the entry under `k`. -/
theorem chosen_replay (sh : Shell) {k : Nat} (small : k < historySize) :
    chosen sh (replay k).name = update sh.history sh.commandNum (some sh.names.length) k := by
  have number : atoi (digits k) = k := atoi_digits (small.trans (by decide))
  simp [chosen, replay, number, entry]

theorem replay_name (k : Nat) : cut (replay k).name = (replay k).name ∧
    (replay k).name.getLast? ≠ some '&' ∧ (replay k).name ≠ "cd".toList ∧
    (replay k).name ≠ "exit".toList := by
  have last : (replay k).name.getLast? ≠ some '&' := by
    intro last
    rcases List.mem_cons.mp (mem_of_getLast? last) with other | digit
    · exact absurd other (by decide)
    · exact absurd (isDigit_of_mem_digits digit) (by decide)
  exact ⟨if_neg last, last, by simp [replay], by simp [replay]⟩

variable {s : Session} {k c : Nat} {name : List Char}

/-- What `#k` executes. -/
theorem Session.replay_eq {t : Session} {command : Nat} (moves : s.line (replay k) = some t)
    (found : chosen s.shell (replay k).name = some command)
    (word : (s.shell.names ++ [(replay k).name])[command]? = some name) :
    t.firsts.getLast? = some (if cut name = "exit".toList then none else
      some ⟨cut name, ((s.typed ++ [replay k]).getD command ⟨[], []⟩).args,
        name.getLast? == some '&'⟩) := by
  have stored : (s.shell.names ++ [(replay k).name]).getD command [] = name := by
    rw [getD_eq_getElem?_getD, word]
    rfl
  obtain ⟨child, -, typed, ⟨cd, -⟩ | ⟨other, -, found', rest⟩⟩ := Session.line_cases moves
  · exact absurd cd (replay_name k).2.2.1
  · obtain rfl := Option.some.inj (found.symm.trans found')
    rw [stored, typed] at rest
    obtain ⟨ends, -, firsts⟩ | ⟨goes, names, -, -, firsts⟩ := rest
    · simp [firsts, ends]
    · have bound := (List.getElem?_eq_some_iff.mp word).1
      have kept : t.shell.names.getD command [] = cut name := by
        rw [names, getD_eq_getElem?_getD, getElem?_set_self bound]
        rfl
      rw [firsts, kept, if_neg goes]
      simp

/-- The lines `#k` that found themselves. -/
theorem Recorded.first_eq_iff (recorded : Recorded s) (entry : s.shell.history k = some c) :
    s.firsts[c]? = some (some ⟨(replay k).name, [], false⟩) ↔ s.typed[c]? = some (replay k) := by
  obtain ⟨-, plain, other, -⟩ := replay_name k
  rcases recorded.entries k c entry with
    ⟨typed, name, first, one, two, three, clean, ampersand⟩ | ⟨-, none, typed, one, cd⟩
  · rw [one, three]
    constructor
    · intro same
      cases same
      by_cases last : typed.name.getLast? = some '&'
      · exact absurd (ampersand last).1 (by simp)
      · obtain ⟨-, -, same⟩ := clean last
        obtain ⟨name, args⟩ := typed
        grind [replay]
    · intro same
      cases same
      rw [(clean plain).2.2]
      rfl
  · rw [one, none]
    constructor
    · simp
    · intro same
      cases same
      exact absurd cd other

/-- What a command executes again. -/
theorem Entry.eq_iff {typed : Typed} (entry : Entry s c) (line : s.typed[c]? = some typed)
    (word : s.shell.names[c]? = some name) :
    some (if cut name = "exit".toList then none else
      some ⟨cut name, typed.args, name.getLast? == some '&'⟩) = s.firsts[c]? ↔
    typed.name.getLast? ≠ some '&' := by
  obtain ⟨typed', name', first, one, two, three, clean, ampersand⟩ := entry
  obtain rfl := Option.some.inj (one.symm.trans line)
  obtain rfl := Option.some.inj (two.symm.trans word)
  rw [three]
  constructor
  · intro same last
    obtain ⟨background, short⟩ := ampersand last
    have shorter := (cut_length name').2
    grind
  · intro plain
    obtain ⟨rfl, goes, rfl⟩ := clean plain
    rw [cut, if_neg plain, if_neg goes, beq_false_of_ne plain]

/-- `#k` executes what the command recorded under `k` executed when it was entered exactly if that
command was not typed with an ampersand and `k` is not the number of the line `#k` itself. -/
theorem history_replay_iff {s : Session} {child : Option Nat} {k c : Nat}
    (reached : Reach Session.line (fun _ _ => True) Session.start s)
    (prompt : s.shell.pc = .prompt child) (entry : s.shell.history k = some c) :
    (∃ t, s.line (replay k) = some t ∧ t.firsts.getLast? = s.firsts[c]?) ↔
      ∃ typed, s.typed[c]? = some typed ∧ typed.name.getLast? ≠ some '&' ∧
        (k = s.shell.commandNum → typed = replay k) := by
  have recorded := recorded_of_reach reached prompt
  obtain ⟨same, plain, other, goes⟩ := replay_name k
  have found := chosen_replay s.shell (recorded.ring k c entry)
  by_cases last : k = s.shell.commandNum
  · -- the line finds itself
    rw [last, update_self, ← last] at found
    obtain ⟨t, moves⟩ := Session.exists_line prompt other found
    have executes := Session.replay_eq moves found (getElem?_concat_length ..)
    have args : ((s.typed ++ [replay k]).getD s.shell.names.length ⟨[], []⟩).args = [] := by
      simp [recorded.names, replay]
    rw [same, if_neg goes, args, beq_false_of_ne plain] at executes
    have first := recorded.first_eq_iff entry
    simp only [moves, Option.some.injEq, exists_eq_left', executes]
    rw [eq_comm, first]
    grind
  · rw [update_of_ne last, entry] at found
    obtain ⟨t, moves⟩ := Session.exists_line prompt other found
    rcases recorded.entries k c entry with entry | ⟨now, -⟩
    · obtain ⟨typed, name, first, line, word, -⟩ := id entry
      have executes := Session.replay_eq moves found
        ((getElem?_append_left entry.lt).trans word)
      have args : (s.typed ++ [replay k]).getD c ⟨[], []⟩ = typed := by
        rw [getD_eq_getElem?_getD,
          getElem?_append_left (List.getElem?_eq_some_iff.mp line).1, line]
        rfl
      rw [args] at executes
      simp only [moves, executes, line, last, Option.some.injEq, exists_eq_left', false_implies,
        and_true]
      exact entry.eq_iff line word
    · exact absurd now last

theorem history_replay_iff_ls : ∃ s t, Session.start.line ⟨"ls".toList, ["a".toList]⟩ = some s ∧
    s.line (replay 0) = some t ∧
    t.firsts.getLast? = some (some ⟨"ls".toList, ["a".toList], false⟩) := by
  have moves : Session.start.line ⟨"ls".toList, ["a".toList]⟩ = some _ := rfl
  obtain ⟨t, goes, same⟩ := (@history_replay_iff _ none 0 0 (.next _ .start trivial moves)
    rfl rfl).mpr ⟨_, rfl, by decide, by decide⟩
  exact ⟨_, t, moves, goes, same⟩

/-- `ls&` runs in the background, and `#0` runs `ls` in the foreground. -/
theorem replay_foreground : ∃ s t, Session.start.line ⟨"ls&".toList, []⟩ = some s ∧
    s.shell.history 0 = some 0 ∧ s.line (replay 0) = some t ∧
    t.firsts = [some ⟨"ls".toList, [], true⟩, some ⟨"ls".toList, [], false⟩] := by
  have executed : (Session.start.line ⟨"ls&".toList, []⟩).bind (fun s =>
      (s.line (replay 0)).map fun t => (s.shell.history 0, t.firsts)) =
      some (some 0, [some ⟨"ls".toList, [], true⟩, some ⟨"ls".toList, [], false⟩]) := by
    decide +kernel
  obtain ⟨s, first, second⟩ := bind_eq_some_iff.mp executed
  obtain ⟨t, goes, same⟩ := map_eq_some_iff.mp second
  obtain ⟨entry, firsts⟩ := Prod.mk.inj same
  exact ⟨s, t, first, entry, goes, firsts⟩

end Xv6.User.Ezsh
