import Xv6.Xvedit.Invariant

/-!
# Sessions of `xvedit`

`main` and `run_command`: the list, the files, and the name given at start-up, to which `SAVE` and
`QUIT` write. What the user answers and whether `open` succeeds come with the command. Two fields
of a session are not in the program: the name of the file that was loaded last, and the list as it
was when it was last loaded or saved.

`EDIT` of a line that exists returns before it counts a change, `OPEN` of another file leaves the
name at start-up, and the count of changes wraps around. Without these, `QUIT` asks whenever there
is something to lose, and what is saved goes where it came from.
-/

namespace Xv6.Xvedit

open Function Lib Option

/-- A name, standing for the file it is resolved to. -/
abbrev Name := List UInt8

structure Session where
  contents : Contents
  files : Name → Option (List UInt8)
  /-- `argv[1]`. -/
  fd : Name
  running : Bool
  /-- The file loaded last. -/
  loaded : Name
  /-- The list when it was last loaded or saved. -/
  kept : Contents

/-- What the user types. -/
inductive Input where
  /-- `@END`, `ADD<`, `EDIT`, or a `DROP` that is confirmed. -/
  | change (command : Command)
  /-- A `DROP` that is not confirmed. -/
  | refuse
  /-- `LIST`, `COPY`, `FIND`, `FLIP`, `HELP`, `SORT`, or no command at all. -/
  | look
  | openFile (name : Name) (opens confirmed : Bool) (memory : Memory) (cells : List Cell)
  | save (name : Option Name) (confirmed opens : Bool) (fuel : Nat)
  | quit (confirmed opens : Bool) (fuel : Nat)

/-- What a command did: whether it asked, whether the program exits, and the file it wrote. -/
structure Outcome where
  asked : Bool
  exits : Bool
  saved : Option Name
  deriving DecidableEq

namespace Session

/-- `save_file`. The file is not truncated. -/
def saveFile (s : Session) (name : Name) (opens : Bool) (fuel : Nat) :
    Option (Session × Option Name) :=
  if opens then do
    let saved ← s.contents.saveFile fuel
    let file := saved ++ ((s.files name).getD []).drop saved.length
    some ({ s with files := update s.files name (some file), kept := s.contents },
      some name)
  else some (s, none)

/-- `new_open`. -/
def newOpen (s : Session) (name : Name) (opens confirmed : Bool) (memory : Memory)
    (cells : List Cell) : Option (Session × Outcome) :=
  if opens then do
    let file ← s.files name
    if confirmed then
      let contents ← s.contents.readFile memory file cells
      some ({ s with contents := contents, loaded := name, kept := contents }, ⟨true, false, none⟩)
    else some (s, ⟨true, false, none⟩)
  else some (s, ⟨false, false, none⟩)

/-- `run_command`. -/
def runCommand (s : Session) : Input → Option (Session × Outcome)
  | .change command => do
    let contents ← commandStep s.contents command
    let asked := match command with
      | .drop _ _ _ => true
      | _ => false
    some ({ s with contents := contents }, ⟨asked, false, none⟩)
  | .refuse => some (s, ⟨true, false, none⟩)
  | .look => some (s, ⟨false, false, none⟩)
  | .openFile name opens confirmed memory cells => s.newOpen name opens confirmed memory cells
  | .save name confirmed opens fuel =>
    if confirmed then do
      let (s, saved) ← s.saveFile (name.getD s.fd) opens fuel
      some (s, ⟨true, false, saved⟩)
    else some (s, ⟨true, false, none⟩)
  | .quit confirmed opens fuel =>
    if s.contents.changes = 0 then some ({ s with running := false }, ⟨false, true, none⟩)
    else if confirmed then do
      let (s, saved) ← s.saveFile s.fd opens fuel
      some ({ s with running := false }, ⟨true, true, saved⟩)
    else some ({ s with running := false }, ⟨true, true, none⟩)

/-- A turn of the loop of `main`. -/
def step (s : Session) (input : Input) : Option Session :=
  if s.running then (s.runCommand input).map Prod.fst else none

/-- `main` up to its loop, for a list that `read_file` has filled. -/
def start (fd : Name) (files : Name → Option (List UInt8)) (contents : Contents) : Session :=
  ⟨contents, files, fd, true, fd, contents⟩

end Session

/-- The line that the loop of `edit` finds. -/
def Contents.lineAt (num : Int) : Nat → Contents → Nat → Nat → Option (List UInt8)
  | 0, _, _, _ => none
  | fuel + 1, s, ln, i =>
    if ln = 0 then none
    else if i = num then some (s.mem ln).line
    else lineAt num fuel s (s.mem ln).next (i + 1)

/-- Nothing is forgotten: the count of changes does not come back to 0; an `EDIT` that is the
first change since the file was loaded does not replace a line by another text; and the only file
that is loaded is the one given at start-up, with a null `next` in the last node. -/
def Tracked (s : Session) : Input → Prop
  | .change (.edit text num _ fuel) => incr s.contents.changes ≠ 0 ∧
    (s.contents.changes = 0 → ∀ line ∈ s.contents.lineAt num fuel s.contents.head 1, line = text)
  | .change _ => incr s.contents.changes ≠ 0
  | .openFile name opens confirmed _ cells => opens = true → confirmed = true →
    name = s.fd ∧ cells.getLast?.map Cell.next = some 0
  | _ => True

instance (s : Session) : (input : Input) → Decidable (Tracked s input)
  | .change (.edit _ _ _ _) => inferInstanceAs (Decidable (_ ∧ (_ → ∀ _ ∈ _, _)))
  | .change (.append _ _) | .change (.add _ _ _ _) | .change (.drop _ _ _) =>
    inferInstanceAs (Decidable (_ ≠ _))
  | .openFile _ _ _ _ _ => inferInstanceAs (Decidable (_ → _ → _ ∧ _))
  | .refuse | .look | .save _ _ _ _ | .quit _ _ _ => inferInstanceAs (Decidable True)

/-- `SAVE` without a name, or `QUIT`. -/
def Input.Unnamed : Input → Prop
  | .save none _ _ _ | .quit _ _ _ => True
  | _ => False

/-! ## The count of changes -/

namespace Contents

variable {s t : Contents} {nodes : List Nat} {lines : List (List UInt8)} {text : List UInt8}
  {cell : Cell} {fuel ln i : Nat} {num : Int} {p : Nat}

theorem malloc_changes (moves : s.malloc cell text = some t) : t.changes = s.changes := by
  obtain ⟨-, -, rfl⟩ := malloc_cases moves
  rfl

theorem setNext_changes {next : Nat} (moves : s.setNext p next = some t) :
    t.changes = s.changes := by
  obtain ⟨-, rfl⟩ := setNext_cases moves
  rfl

theorem free_changes (moves : s.free p = some t) : t.changes = s.changes := by
  obtain ⟨-, rfl⟩ := free_cases moves
  rfl

theorem appendLine_changes (moves : s.appendLine text cell = some t) :
    t.changes = incr s.changes := by
  obtain ⟨u, allocated, moves⟩ := bind_eq_some_iff.mp moves
  obtain ⟨v, appended, moves⟩ := bind_eq_some_iff.mp moves
  obtain ⟨w, turned, appended⟩ := bind_eq_some_iff.mp appended
  obtain ⟨x, ended, appended⟩ := bind_eq_some_iff.mp appended
  cases moves
  cases appended
  change incr x.changes = _
  rw [setNext_changes ended]
  change incr w.changes = _
  rw [setNext_changes turned, malloc_changes allocated]

theorem addLoop_changes (moves : addLoop num p fuel s ln i = some t) : t.changes = s.changes := by
  induction fuel generalizing ln i with
  | zero => contradiction
  | succ fuel ih =>
    grind [addLoop, bind_eq_some_iff, setNext_changes]

theorem dropRest_changes (moves : dropRest fuel s p = some t) : t.changes = s.changes := by
  induction fuel generalizing s p with
  | zero => contradiction
  | succ fuel ih =>
    obtain ⟨after, -, moves⟩ := bind_eq_some_iff.mp moves
    grind [bind_eq_some_iff, free_changes]

theorem dropNodes_changes {more q : Nat} (moves : dropNodes more s p = some (t, q)) :
    t.changes = s.changes := by
  induction more generalizing s p with
  | zero => rw [← (Prod.mk.inj (Option.some.inj moves)).1]
  | succ more ih =>
    obtain ⟨after, -, moves⟩ := bind_eq_some_iff.mp moves
    obtain ⟨u, freed, moves⟩ := bind_eq_some_iff.mp moves
    have kept := free_changes freed
    exact (ih moves).trans kept

theorem dropLoop_changes {start stop : Int} (moves : dropLoop start stop fuel s ln i = some t) :
    t.changes = s.changes := by
  induction fuel generalizing s ln i with
  | zero => contradiction
  | succ fuel ih =>
    rw [dropLoop] at moves
    split at moves
    · obtain ⟨after, -, moves⟩ := bind_eq_some_iff.mp moves
      dsimp only at moves
      split at moves
      · obtain ⟨u, ended, moves⟩ := bind_eq_some_iff.mp moves
        exact (dropRest_changes moves).trans (setNext_changes ended)
      · split at moves
        · obtain ⟨u, freed, moves⟩ := bind_eq_some_iff.mp moves
          have kept := free_changes freed
          exact (ih moves).trans kept
        · split at moves
          · exact ih moves
          · split at moves
            · obtain ⟨⟨u, p⟩, dropped, moves⟩ := bind_eq_some_iff.mp moves
              exact (setNext_changes moves).trans (dropNodes_changes dropped)
            · exact ih moves
    · rw [Option.some.inj moves]

/-! ## The lines -/

/-- A new node does not change the lines. -/
theorem Linked.malloc_shows (linked : s.Linked nodes 0) (shown : s.Shows lines)
    (moves : s.malloc cell text = some t) : t.Shows lines := by
  obtain ⟨linked', -, new, -⟩ := linked.malloc moves
  obtain rfl := shown.unique linked.shows
  obtain ⟨-, -, rfl⟩ := malloc_cases moves
  refine ⟨nodes, ⟨linked'.path, linked'.null⟩, List.map_congr_left fun p member => ?_⟩
  exact congrArg Node.line (update_of_ne (ne_of_mem_of_not_mem member new) _ _)

/-- `edit` counts a change where it finds no line, and replaces the line that it finds. -/
theorem editLoop_lineAt (moves : editLoop num text fuel s ln i = some t) :
    t = { s with changes := incr s.changes } ∨
      ∃ p, lineAt num fuel s ln i = some (s.mem p).line ∧
        t = { s with mem := update s.mem p { s.mem p with line := text } } := by
  induction fuel generalizing ln i with
  | zero => contradiction
  | succ fuel ih =>
    grind [editLoop, lineAt]

/-- A node off the list does not matter to what `edit` finds. -/
theorem lineAt_congr {rest : List Nat} (path : Path (fun p => (s.mem p).next) ln rest 0)
    (agree : ∀ p ∈ rest, t.mem p = s.mem p) : lineAt num fuel t ln i = lineAt num fuel s ln i := by
  induction fuel generalizing ln i rest with
  | zero => rfl
  | succ fuel ih =>
    rw [lineAt, lineAt]
    cases rest with
    | nil =>
      have ended : ln = 0 := path
      rw [if_pos ended, if_pos ended]
    | cons a rest =>
      grind [Lib.Path]

end Contents

/-! ## Runs -/

/-- What is saved goes to the file that was loaded, and without a change there is nothing to
lose. -/
structure Kept (s : Session) : Prop where
  fd : s.fd = s.loaded
  same : s.contents.changes = 0 →
    ∃ nodes lines, s.contents.Linked nodes 0 ∧ s.contents.Shows lines ∧ s.kept.Shows lines

namespace Kept

variable {s t : Session} {contents : Contents} {outcome : Outcome} (kept : Kept s) {name : Name}
  {fuel : Nat}

include kept

omit kept in
/-- A list that has just been loaded. -/
theorem of_linked {nodes : List Nat} (linked : contents.Linked nodes 0)
    (files : Name → Option (List UInt8)) (fd : Name) (running : Bool) :
    Kept ⟨contents, files, fd, running, fd, contents⟩ :=
  ⟨rfl, fun _ => ⟨nodes, _, linked, linked.shows, linked.shows⟩⟩

/-- A change that is counted. -/
theorem counted (changes : contents.changes = incr s.contents.changes)
    (wraps : incr s.contents.changes ≠ 0) : Kept { s with contents := contents } :=
  ⟨kept.fd, fun none => absurd (changes.symm.trans none) wraps⟩

/-- `EDIT`: as the first change it leaves all lines as they are, or counts. -/
theorem edit {text : List UInt8} {num : Int} {cell : Cell}
    (tracked : Tracked s (.change (.edit text num cell fuel)))
    (moves : s.contents.edit text num cell fuel = some contents) :
    Kept { s with contents := contents } := by
  obtain ⟨u, allocated, moves⟩ := bind_eq_some_iff.mp moves
  have changes : u.changes = s.contents.changes := Contents.malloc_changes allocated
  rcases Contents.editLoop_lineAt moves with rfl | ⟨p, found, rfl⟩
  · exact kept.counted (congrArg incr changes) tracked.1
  · refine ⟨kept.fd, fun none => ?_⟩
    obtain ⟨nodes, lines, linked, shown, reference⟩ := kept.same (changes.symm.trans none)
    -- the line that is found is the new text already, so memory stays as `malloc` left it
    have same : (u.mem p).line = text := by
      refine tracked.2 (changes.symm.trans none) _ ?_
      have new := (linked.malloc allocated).2.2.1
      obtain ⟨-, -, rfl⟩ := Contents.malloc_cases allocated
      rw [Contents.lineAt_congr linked.path fun q member =>
        update_of_ne (ne_of_mem_of_not_mem member new) _ _] at found
      exact found
    have memory : update u.mem p { u.mem p with line := text } = u.mem := by
      rw [← same]
      exact update_eq_self p u.mem
    refine ⟨nodes, lines, ?_, ?_, reference⟩
    · change Contents.Linked { u with mem := update u.mem p _ } _ _
      rw [memory]
      exact (linked.malloc allocated).1
    · change Contents.Shows { u with mem := update u.mem p _ } _
      rw [memory]
      exact linked.malloc_shows shown allocated

theorem change {command : Command} (tracked : Tracked s (.change command))
    (moves : commandStep s.contents command = some contents) :
    Kept { s with contents := contents } := by
  cases command with
  | append text cell => exact kept.counted (Contents.appendLine_changes moves) tracked
  | add text num cell fuel =>
    obtain ⟨u, allocated, moves⟩ := bind_eq_some_iff.mp moves
    have changes := Contents.addLoop_changes moves
    exact kept.counted (changes.trans (congrArg incr (Contents.malloc_changes allocated))) tracked
  | edit text num cell fuel => exact kept.edit tracked moves
  | drop start stop fuel => exact kept.counted (Contents.dropLoop_changes moves) tracked

/-- `save_file`. -/
theorem saveFile {opens : Bool} {saved : Option Name}
    (moves : s.saveFile name opens fuel = some (t, saved)) : Kept t := by
  constructor <;> grind [Session.saveFile, bind_eq_some_iff, cases Kept]

/-- `new_open`. -/
theorem newOpen {opens confirmed : Bool} {memory : Memory} {cells : List Cell}
    (tracked : Tracked s (.openFile name opens confirmed memory cells))
    (moves : s.newOpen name opens confirmed memory cells = some (t, outcome)) : Kept t := by
  grind [Session.newOpen, bind_eq_some_iff, Contents.readFile_linked, of_linked, Tracked]

/-- The program exits. -/
theorem exit : Kept { s with running := false } := ⟨kept.fd, kept.same⟩

/-- Every command. -/
theorem runCommand {input : Input} (tracked : Tracked s input)
    (moves : s.runCommand input = some (t, outcome)) : Kept t := by
  cases input with
  | change command =>
    obtain ⟨contents, changed, result⟩ := bind_eq_some_iff.mp moves
    obtain ⟨rfl, -⟩ := Prod.mk.inj (Option.some.inj result)
    exact kept.change tracked changed
  | refuse | look =>
    obtain ⟨rfl, -⟩ := Prod.mk.inj (Option.some.inj moves)
    exact kept
  | openFile name opens confirmed memory cells => exact kept.newOpen tracked moves
  | save name confirmed opens fuel =>
    rw [Session.runCommand] at moves
    split at moves
    · obtain ⟨⟨u, saved⟩, wrote, result⟩ := bind_eq_some_iff.mp moves
      obtain ⟨rfl, -⟩ := Prod.mk.inj (Option.some.inj result)
      exact kept.saveFile wrote
    · obtain ⟨rfl, -⟩ := Prod.mk.inj (Option.some.inj moves)
      exact kept
  | quit confirmed opens fuel =>
    rw [Session.runCommand] at moves
    split at moves
    · obtain ⟨rfl, -⟩ := Prod.mk.inj (Option.some.inj moves)
      exact kept.exit
    · split at moves
      · obtain ⟨⟨u, saved⟩, wrote, result⟩ := bind_eq_some_iff.mp moves
        obtain ⟨rfl, -⟩ := Prod.mk.inj (Option.some.inj result)
        exact (kept.saveFile wrote).exit
      · obtain ⟨rfl, -⟩ := Prod.mk.inj (Option.some.inj moves)
        exact kept.exit

end Kept

namespace Session

variable {s t : Session} {input : Input} {outcome : Outcome} {name : Name}

/-- `save_file` writes the file that it is given. -/
theorem saveFile_files {opens : Bool} {fuel : Nat} {saved : Option Name}
    (moves : s.saveFile name opens fuel = some (t, saved)) :
    (∀ target, saved = some target → target = name) ∧
      ∀ other, other ≠ name → t.files other = s.files other := by
  rw [saveFile] at moves
  split at moves
  · obtain ⟨lines, -, moves⟩ := bind_eq_some_iff.mp moves
    cases moves
    exact ⟨fun _ same => (Option.some.inj same).symm,
      fun _ different => update_of_ne different _ _⟩
  · cases moves
    exact ⟨fun _ same => absurd same (by simp), fun _ _ => rfl⟩

/-- Only `QUIT` exits, and it asks if changes were counted. -/
theorem changes_of_exit (runs : s.runCommand input = some (t, outcome))
    (exits : outcome.exits = true) (silent : outcome.asked = false) : s.contents.changes = 0 := by
  cases input with
  | change command =>
    obtain ⟨contents, -, result⟩ := bind_eq_some_iff.mp runs
    obtain ⟨-, rfl⟩ := Prod.mk.inj (Option.some.inj result)
    contradiction
  | refuse | look =>
    obtain ⟨-, rfl⟩ := Prod.mk.inj (Option.some.inj runs)
    contradiction
  | openFile name opens confirmed memory cells =>
    grind [runCommand, newOpen, bind_eq_some_iff]
  | save name confirmed opens fuel =>
    grind [runCommand, bind_eq_some_iff]
  | quit confirmed opens fuel =>
    grind [runCommand, bind_eq_some_iff]

/-- Without a name, the name at start-up is taken. -/
theorem saves_fd (runs : s.runCommand input = some (t, outcome)) (unnamed : input.Unnamed)
    (saved : outcome.saved = some name) :
    name = s.fd ∧ ∀ other, other ≠ s.fd → t.files other = s.files other := by
  cases input with
  | change command | refuse | look | openFile name opens confirmed memory cells => cases unnamed
  | save given confirmed opens fuel =>
    cases given with
    | some given => cases unnamed
    | none =>
      grind [runCommand, bind_eq_some_iff, saveFile_files]
  | quit confirmed opens fuel =>
    grind [runCommand, bind_eq_some_iff, saveFile_files]

end Session

/-- In a session whose commands all meet the condition: where a command exits without asking, the
lines are those that were last loaded or saved; and what `SAVE` without a name or `QUIT` saves goes
to the file that was loaded last, and to no other. -/
theorem session_keeps_changes (memory : Memory) (file : List UInt8) (cells : List Cell)
    (before loaded : Contents) (fd : Name) (files : Name → Option (List UInt8)) (s t : Session)
    (input : Input) (outcome : Outcome) (loads : before.readFile memory file cells = some loaded)
    (ends : cells.getLast?.map Cell.next = some 0)
    (reach : Reach Session.step Tracked (Session.start fd files loaded) s)
    (runs : s.runCommand input = some (t, outcome)) :
    (outcome.exits = true → outcome.asked = false →
      ∃ lines, s.contents.Shows lines ∧ s.kept.Shows lines) ∧
    (input.Unnamed → ∀ name, outcome.saved = some name →
      name = s.loaded ∧ ∀ other, other ≠ s.loaded → t.files other = s.files other) := by
  have kept : Kept s := by
    refine reach.invariant Kept ?_ ?_
    · obtain ⟨nodes, linked⟩ := Contents.readFile_linked loads ends
      exact .of_linked linked files fd true
    · intro s input t kept tracked moves
      rw [Session.step] at moves
      split at moves
      · obtain ⟨⟨u, outcome⟩, runs, rfl⟩ := map_eq_some_iff.mp moves
        exact kept.runCommand tracked runs
      · contradiction
  constructor
  · intro exits silent
    obtain ⟨nodes, lines, -, shown, reference⟩ :=
      kept.same (Session.changes_of_exit runs exits silent)
    exact ⟨lines, shown, reference⟩
  · intro unnamed name saved
    rw [← kept.fd]
    exact Session.saves_fd runs unnamed saved

/-- The line of a file is replaced by itself, another one is appended, and the list is saved. -/
theorem session_keeps_changes_saved : ∃ s t : Session, s.contents.changes = 1 ∧
    s.runCommand (.quit true true 4) = some (t, ⟨true, true, some [102]⟩) ∧ [102] = s.loaded := by
  let events : List Input := [.change (.edit [97] 1 ⟨16, 0⟩ 2), .change (.append [98] ⟨24, 0⟩)]
  have executed : ((blank.readFile zeroMemory [97] [⟨8, 0⟩]).bind fun contents =>
      (runChecked Session.step Tracked events (Session.start [102] (fun _ => none) contents)).bind
        fun s => (s.runCommand (.quit true true 4)).map fun quit =>
          (s.contents.changes, quit.2)) = some (1, ⟨true, true, some [102]⟩) := by
    decide +kernel
  obtain ⟨contents, loads, executed⟩ := bind_eq_some_iff.mp executed
  obtain ⟨s, run, executed⟩ := bind_eq_some_iff.mp executed
  obtain ⟨⟨t, outcome⟩, runs, result⟩ := map_eq_some_iff.mp executed
  obtain ⟨changes, rfl⟩ := Prod.mk.inj result
  have reach := reach_of_runChecked events .start run
  exact ⟨s, t, changes, runs,
    ((session_keeps_changes _ _ _ _ _ _ _ _ _ _ _ loads rfl reach runs).2 trivial _ rfl).1⟩

/-- `EDIT` of the only line is not counted, and `QUIT` exits without asking; and after `OPEN` of
another file, `SAVE` writes to the first. -/
theorem session_loses_changes : ∃ contents s t u v,
    let files := update (fun _ => some [98]) [102] (some [97])
    blank.readFile zeroMemory [97] [⟨8, 0⟩] = some contents ∧
    (Session.start [102] files contents).step (.change (.edit [99] 1 ⟨16, 0⟩ 2)) = some s ∧
    s.runCommand (.quit true true 3) = some (t, ⟨false, true, none⟩) ∧
    s.contents.Shows [[99]] ∧ s.kept.Shows [[97]] ∧
    (Session.start [102] files contents).step
      (.openFile [103] true true zeroMemory [⟨16, 0⟩]) = some u ∧
    u.runCommand (.save none true true 3) = some (v, ⟨true, false, some [102]⟩) ∧
    u.loaded = [103] ∧ v.files [102] = some [98, 10] := by
  refine ⟨_, _, _, _, _, rfl, rfl, rfl, ⟨[8], by decide, by decide⟩, ⟨[8], by decide, by decide⟩,
    rfl, rfl, rfl, by decide⟩

end Xv6.Xvedit
