import Xv6.Proc.Program
import Xv6.User.Ulib

/-!
# The shell `ezsh`

The loop of `ezsh.c` in one process of the table. `wait` returns the first exited child in table
order, whichever command it was forked for, so the shell comes back too early if a background
child exits while a foreground command is running. If no background child is a zombie whenever
`wait` looks for exited children and the foreground command still runs, the next prompt is
printed only when that command has exited.
-/

namespace Xv6.User

open Function Lib Xv6.Proc Option

namespace Ezsh

/-- `history_size`. -/
def historySize : Nat := 10

/-- Where the shell stands. A process that was forked for a foreground command is known by its
number. -/
inductive Pc where
  /-- About to print the prompt; the process of the command before, if it was a foreground
  command and `fork` made one. -/
  | prompt (child : Option Nat)
  /-- About to call `fork`, or in it. -/
  | fork (background : Bool)
  /-- About to call `wait`, or in it. -/
  | wait (child : Option Nat)
  /-- About to call `exit`. -/
  | exit
  /-- Exited. -/
  | gone
  deriving DecidableEq

/-- The variables of `main`. -/
structure Shell where
  /-- `argv[0]` of the commands read so far, which `history` points to. -/
  names : List (List Char)
  history : Nat → Option Nat
  commandNum : Nat
  pc : Pc

/-- Before the first prompt. -/
def start : Shell := ⟨[], fun _ => none, 0, .prompt none⟩

/-- `history[number]`, if it was ever set. -/
def entry (history : Nat → Option Nat) (number : Int) : Option Nat :=
  if 0 ≤ number then history number.toNat else none

namespace Shell

/-- The loop from a parsed line up to `fork`. There is no step for a `#` whose entry of `history`
was never set. -/
def enter (sh : Shell) (argv0 : List Char) : Option Shell :=
  let line := sh.names.length
  let sh := { sh with
    names := sh.names ++ [argv0]
    history := update sh.history sh.commandNum (some line) }
  if argv0 = "cd".toList then some { sh with pc := .prompt none }
  else
    match if argv0.head? = some '#' then entry sh.history (atoi argv0.tail) else some line with
    | none => none
    | some command =>
      let name := sh.names.getD command []
      let background := name.getLast? == some '&'
      let name := if background then name.dropLast else name
      let sh := { sh with
        names := sh.names.set command name
        history := update sh.history sh.commandNum (some command) }
      some { sh with pc := if name = "exit".toList then .exit else .fork background }

/-- The end of the loop. -/
def next (sh : Shell) (child : Option Nat) : Shell :=
  { sh with
    commandNum := if sh.commandNum + 1 = historySize then 0 else sh.commandNum + 1
    pc := .prompt child }

/-- A system call returns, unless the process is killed: then `trap` calls `exit`. -/
def ret (self : Slot) (after : State) (sh : Shell) : Shell :=
  if (after.proc self).killed then { sh with pc := .exit } else sh

/-- Behind `fork`. -/
def forked (self : Slot) (after : State) (sh : Shell) (background : Bool) (child : Option Nat) :
    Shell :=
  ret self after (if background then sh.next none else { sh with pc := .wait child })

/-- `fork` goes on or has failed. -/
def forking (self : Slot) (after : State) (sh : Shell) (background : Bool) : Shell :=
  if (after.proc self).point = .outside then forked self after sh background none else sh

/-- `wait` sleeps or returns. -/
def waiting (self : Slot) (after : State) (sh : Shell) (child : Option Nat) : Shell :=
  if (after.proc self).parked = some .wait then sh else ret self after (sh.next child)

/-- The calls of the shell. -/
def call (self : Slot) (sh : Shell) (before after : State) : Action → Option Shell
  | .fork | .kalloc _ | .copyuvm _ =>
    match sh.pc with
    | .fork background => some (forking self after sh background)
    | _ => none
  | .publish =>
    match sh.pc, (before.proc self).point with
    | .fork background, .publish np =>
      some (forked self after sh background (some (before.proc np).serial))
    | _, _ => none
  | .wait =>
    match sh.pc with
    | .wait child => some (waiting self after sh child)
    | _ => none
  | .resume =>
    if (before.proc self).parked = some .wait then
      match sh.pc with
      | .wait child => some (waiting self after sh child)
      | _ => none
    else some sh
  | .exit =>
    if sh.pc = .exit ∨ (before.proc self).killed then some { sh with pc := .gone } else none
  | .yield | .sleep _ | .trap => some sh
  | _ => none

/-- A line is read; `none` is the end of the input. -/
def read (sh : Shell) (line : Option (List Char)) : Option Shell :=
  match sh.pc, line with
  | .prompt _, some argv0 => sh.enter argv0
  | .prompt _, none => some { sh with pc := .exit }
  | _, _ => none

end Shell

/-- `ezsh` in the process `self`. -/
def ezsh (self : Slot) : Program Shell (Option (List Char)) where
  call := Shell.call self
  user := Shell.read
  gone sh := sh.pc = .gone

/-- The foreground command that the shell waits for. -/
def Pc.foreground : Pc → Option Nat
  | wait child => child
  | _ => none

/-- The step looks for exited children in the `wait` of the shell. -/
def Scans (self : Slot) (s : State × Shell) (event : Nat × UserEvent (Option (List Char))) : Prop :=
  (s.1.cpu event.1).proc = some self ∧ (event.2 = .kernel .wait ∨
    event.2 = .kernel .resume ∧ (s.1.proc self).parked = some .wait)

/-- When `wait` looks for exited children and the foreground command still runs, no child of the
shell has exited. -/
def Undistracted (self : Slot) (s : State × Shell)
    (event : Nat × UserEvent (Option (List Char))) : Prop :=
  ∀ n ∈ s.2.pc.foreground, Scans self s event → ¬s.1.Exited n →
    ∀ q, (s.1.proc q).parent = some self → (s.1.proc q).state ≠ .zombie

instance (self : Slot) (s : State × Shell) (event : Nat × UserEvent (Option (List Char))) :
    Decidable (Scans self s event) :=
  inferInstanceAs (Decidable (_ ∧ (_ ∨ _ ∧ _)))

instance (self : Slot) (s : State × Shell) (event : Nat × UserEvent (Option (List Char))) :
    Decidable (Undistracted self s event) :=
  inferInstanceAs (Decidable (∀ n ∈ s.2.pc.foreground, Scans self s event → ¬s.1.Exited n →
    ∀ q : Slot, (s.1.proc q).parent = some self → (s.1.proc q).state ≠ .zombie))

/-- What the places of the shell say about the kernel. -/
def Pc.Ok (self : Slot) (s : State) : Pc → Prop
  | prompt (some n) => n ≤ s.forks ∧ s.Exited n
  | wait (some n) => n ≤ s.forks ∧ ∀ q, (s.proc q).serial = n → (s.proc q).state ≠ .unused →
      (s.proc q).state ≠ .zombie → (s.proc q).parent = some self
  | _ => True

section Steps

variable {self : Slot} {s t : State} {c : Nat} {action : Action} {sh next : Shell} {pc : Pc}
  {background : Bool}

/-- The shell stays where it is. -/
theorem Pc.Ok.stay (kernel : Kernel s) (ok : pc.Ok self s) (moves : Moves s c action t)
    (stays : s.Acts c self action → action ≠ .exit) : pc.Ok self t := by
  have later := kernel.forks moves
  cases pc with
  | prompt child =>
    cases child with
    | none => trivial
    | some n => exact ⟨ok.1.trans later, kernel.exited moves ok.2 ok.1⟩
  | wait child =>
    cases child with
    | none => trivial
    | some n =>
      refine ⟨ok.1.trans later, fun q number used lives => ?_⟩
      obtain ⟨serial, was, lived⟩ := kernel.living moves (number ▸ ok.1) used lives
      exact kernel.keeps moves stays (ok.2 q (serial.trans number) was lived) used
  | fork background | exit | gone => trivial

theorem ok_ret (ok : sh.pc.Ok self t) : (sh.ret self t).pc.Ok self t := by
  unfold Shell.ret
  split
  · trivial
  · exact ok

/-- `fork` failed. -/
theorem ok_forking (place : ∃ background, sh.pc = .fork background) :
    (sh.forking self t background).pc.Ok self t := by
  obtain ⟨other, here⟩ := place
  unfold Shell.forking Shell.forked
  split
  · refine ok_ret ?_
    split <;> trivial
  · rw [here]
    trivial

/-- `fork` made a process for a foreground command. -/
theorem ok_publish (kernel : Kernel s) (moves : Moves s c .publish t) {np : Slot}
    (point : (s.proc self).point = .publish np) :
    (Pc.wait (some (s.proc np).serial)).Ok self t := by
  have embryo := kernel.forking.embryo self np (by rw [point]; rfl)
  have small := (kernel.numbered.pid np (by simp [embryo])).2
  refine ⟨small.trans (kernel.forks moves), fun q number used lives => ?_⟩
  obtain ⟨serial, was, _⟩ := kernel.living moves (number ▸ small) used lives
  obtain rfl := kernel.numbered.distinct q np was (by simp [embryo]) (serial.trans number)
  exact kernel.keeps moves (by simp) (kernel.family.born self q point) used

/-- `wait` returns for a foreground command. -/
theorem ok_waiting {child : Option Nat} (kernel : Kernel s) (moves : Moves s c action t)
    (acts : s.Acts c self action)
    (scans : action = .wait ∨ action = .resume ∧ (s.proc self).parked = some .wait)
    (place : sh.pc = .wait child) (ok : sh.pc.Ok self s)
    (undistracted : ∀ n, child = some n → ¬s.Exited n →
      ∀ q, (s.proc q).parent = some self → (s.proc q).state ≠ .zombie) :
    (sh.waiting self t child).pc.Ok self t := by
  have stays : action ≠ .exit := by
    rcases scans with rfl | ⟨rfl, _⟩ <;> simp
  unfold Shell.waiting
  split
  · exact ok.stay kernel moves fun _ => stays
  · rename_i returns
    unfold Shell.ret
    split
    · trivial
    · rename_i lives
      rw [place] at ok
      cases child with
      | none => trivial
      | some n =>
        refine ⟨ok.1.trans (kernel.forks moves), kernel.exited moves ?_ ok.1⟩
        by_contra runs
        rcases moves.waited acts scans returns (by simpa using lives) with ⟨z, child, zombie⟩ | none
        all_goals grind [Pc.Ok, Proc.State.Exited]

/-- A step of the shell in the kernel. -/
theorem ok_call (kernel : Kernel s) (moves : Moves s c action t) (acts : s.Acts c self action)
    (ok : sh.pc.Ok self s) (calls : sh.call self s t action = some next)
    (undistracted : Undistracted self (s, sh) (c, .kernel action)) : next.pc.Ok self t := by
  have stays : action ≠ .exit → sh.pc.Ok self t := fun other => ok.stay kernel moves fun _ => other
  cases action <;> simp only [Shell.call, reduceCtorEq, Option.some.injEq] at calls
  case fork | kalloc | copyuvm =>
    grind [ok_forking]
  case publish =>
    split at calls
    · rename_i background np here point
      cases calls
      refine ok_ret ?_
      split
      · trivial
      · exact ok_publish kernel moves point
    · exact absurd calls (by simp)
  case wait =>
    split at calls
    · rename_i child here
      cases calls
      refine ok_waiting kernel moves acts (.inl rfl) here ok fun n number => ?_
      exact undistracted n (by rw [here, number]; rfl) ⟨acts.1, .inl rfl⟩
    · exact absurd calls (by simp)
  case resume =>
    split at calls
    · rename_i asleep
      split at calls
      · rename_i child here
        cases calls
        refine ok_waiting kernel moves acts (.inr ⟨rfl, asleep⟩) here ok fun n number => ?_
        exact undistracted n (by rw [here, number]; rfl) ⟨acts.1, .inr ⟨rfl, asleep⟩⟩
      · exact absurd calls (by simp)
    · cases calls
      exact stays (by simp)
  all_goals grind [Pc.Ok]

theorem ok_ite {condition : Prop} [Decidable condition] :
    (if condition then Pc.exit else .fork background).Ok self s := by
  split <;> trivial

/-- A line that is read leads to `fork`, `exit` or the next prompt. -/
theorem ok_read {line : Option (List Char)} (reads : sh.read line = some next) :
    next.pc.Ok self s := by
  unfold Shell.read at reads
  split at reads
  · rename_i argv0 here
    unfold Shell.enter at reads
    simp only at reads
    split at reads
    · cases reads
      trivial
    split at reads
    · exact absurd reads (by simp)
    · cases reads
      exact ok_ite
  · cases reads
    trivial
  · exact absurd reads (by simp)

end Steps

/-- In every run in which, whenever `wait` looks for exited children while the foreground command
still runs, no child of `ezsh` has exited: when `ezsh` is about to print the prompt behind a
foreground command, the process forked for that command has exited. -/
theorem ezsh_waits_for_foreground (self : Slot) {kernel : State} {s : State × Shell}
    (booted : Reach procStep (fun _ _ => True) boot kernel)
    (reached : Reach ((ezsh self).step self) (Undistracted self) (kernel, start) s) {n : Nat}
    (prompts : s.2.pc = .prompt (some n)) : s.1.Exited n := by
  have all : Kernel s.1 ∧ s.2.pc.Ok self s.1 := by
    refine reached.invariant (fun s => Kernel s.1 ∧ s.2.pc.Ok self s.1)
      ⟨.of_reach booted, trivial⟩ ?_
    rintro ⟨s, sh⟩ ⟨c, event⟩ ⟨t, next⟩ ⟨kernel, ok⟩ undistracted moves
    obtain ⟨line, _, reads, same⟩ | ⟨action, rfl, moves, rest⟩ :=
      (ezsh self).step_cases self moves
    · obtain rfl : t = s := same
      exact ⟨kernel, ok_read reads⟩
    · refine ⟨kernel.step moves, ?_⟩
      rcases rest with ⟨acts, _, calls⟩ | ⟨other | gone, same⟩
      · exact ok_call kernel moves acts ok calls undistracted
      · obtain rfl : next = sh := same
        exact ok.stay kernel moves fun acts => absurd acts other
      · obtain rfl : next = sh := same
        have gone : next.pc = .gone := of_decide_eq_true gone
        rw [gone]
        trivial
  have ok := all.2
  rw [prompts] at ok
  exact ok.2

/-- `ezsh` reads a command and forks a process for it. -/
def run (line : String) : List (Nat × UserEvent (Option (List Char))) :=
  (0, .user (some line.toList)) :: callFork

/-- A foreground command exits before `ezsh` waits for it. -/
theorem ezsh_waits_for_foreground_exited : ∃ s : State × Shell,
    s.2.pc = .prompt (some 2) ∧ s.1.forks = 2 ∧ s.1.Exited 2 := by
  have executed : ((runChecked procStep (fun _ _ => True) bootChild boot).bind fun kernel =>
      (runChecked ((ezsh firstChild).step firstChild) (Undistracted firstChild)
        (run "b" ++ runAndExit 2 ++ [(0, .kernel .wait)]) (kernel, start)).map fun s =>
        decide (s.2.pc = .prompt (some 2) ∧ s.1.forks = 2)) = some true := by
    decide +kernel
  obtain ⟨kernel, booted, executed⟩ := bind_eq_some_iff.mp executed
  obtain ⟨s, ran, holds⟩ := map_eq_some_iff.mp executed
  obtain ⟨prompts, forks⟩ := of_decide_eq_true holds
  exact ⟨s, prompts, forks, ezsh_waits_for_foreground firstChild
    (reach_of_runChecked _ .start booted) (reach_of_runChecked _ .start ran) prompts⟩

/-- A background command exits, and the `wait` for the next command returns it: the prompt comes
while the foreground command has not even run. -/
theorem ezsh_reaps_background : ∃ (kernel : State) (s : State × Shell),
    Reach procStep (fun _ _ => True) boot kernel ∧
    Reach ((ezsh firstChild).step firstChild) (fun _ _ => True) (kernel, start) s ∧
    s.2.pc = .prompt (some 3) ∧ ¬s.1.Exited 3 := by
  have executed : ((runChecked procStep (fun _ _ => True) bootChild boot).bind fun kernel =>
      (runChecked ((ezsh firstChild).step firstChild) (fun _ _ => True)
        (run "a&" ++ runAndExit 2 ++ run "b" ++ [(0, .kernel .wait)]) (kernel, start)).map fun s =>
        decide (s.2.pc = .prompt (some 3) ∧ ¬s.1.Exited 3)) = some true := by
    decide +kernel
  obtain ⟨kernel, booted, executed⟩ := bind_eq_some_iff.mp executed
  obtain ⟨s, ran, holds⟩ := map_eq_some_iff.mp executed
  exact ⟨kernel, s, reach_of_runChecked _ .start booted, reach_of_runChecked _ .start ran,
    of_decide_eq_true holds⟩

end Ezsh

end Xv6.User
