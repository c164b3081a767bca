import Mathlib.Data.Finset.Card
import Xv6.Lib.Run
import Xv6.Param

/-!
# Spin locks

`acquire` and `release` of `spinlock.c` on any number of CPUs, with `pushcli` and `popcli`. The
`xchg` and the stores to a lock are separate steps. `holding` runs with interrupts off, where its
own `pushcli` and `popcli` undo each other. `sched`, which exchanges `intena`, is left out.
-/

namespace Xv6.Spinlock

open Function Lib

/-- Where a CPU is in `acquire` or `release`. -/
inductive Pc where
  | outside
  | xchg (lk : Nat)
  | own (lk : Nat)
  | clear (lk : Nat)
  | pop

/-- A CPU; `enabled` is `FL_IF`, and `set` what it was last set to outside `pushcli`. -/
structure Cpu where
  ncli : Nat
  intena : Bool
  enabled : Bool
  set : Bool
  pc : Pc

/-- `locked` and `cpu` of the locks, and the CPUs. -/
structure State where
  locked : Nat → Bool
  holder : Nat → Option Nat
  cpu : Nat → Cpu

/-- `pushcli`. -/
def Cpu.pushcli (c : Cpu) : Cpu :=
  { c with
    ncli := c.ncli + 1
    intena := if c.ncli = 0 then c.enabled else c.intena
    enabled := false }

/-- `popcli`, or its panic. -/
def Cpu.popcli (c : Cpu) : Option Cpu :=
  if c.enabled ∨ c.ncli = 0 then none
  else some { c with ncli := c.ncli - 1, enabled := if c.ncli = 1 then c.intena else false }

/-- What a CPU does: `flag` is `sti`, or an interrupt that is taken or left. -/
inductive Action where
  | flag (enabled : Bool)
  | acquire (lk : Nat)
  | release (lk : Nat)
  | next

/-- One step of a CPU; a panic ends the run. -/
def step (s : State) (event : Nat × Action) : Option State :=
  let c := s.cpu event.1
  let put (c : Cpu) : State := { s with cpu := update s.cpu event.1 c }
  match event.2, c.pc with
  | .flag b, .outside => if c.ncli = 0 then some (put { c with enabled := b, set := b }) else none
  | .acquire lk, .outside =>
    if s.locked lk ∧ s.holder lk = some event.1 then none
    else some (put { c.pushcli with pc := .xchg lk })
  | .release lk, .outside =>
    if s.locked lk ∧ s.holder lk = some event.1 then
      some { put { c with pc := .clear lk } with holder := update s.holder lk none }
    else none
  | .next, .xchg lk =>
    if s.locked lk then some s
    else some { put { c with pc := .own lk } with locked := update s.locked lk true }
  | .next, .own lk =>
    some { put { c with pc := .outside } with holder := update s.holder lk (some event.1) }
  | .next, .clear lk => some { put { c with pc := .pop } with locked := update s.locked lk false }
  | .next, .pop => c.popcli.map fun c => put { c with pc := .outside }
  | _, _ => none

/-- All locks are free. -/
def boot (enabled : Nat → Bool) : State :=
  ⟨fun _ => false, fun _ => none, fun c => ⟨0, false, enabled c, enabled c, .outside⟩⟩

/-- The CPU is between the `xchg` that took the lock and the store that frees it. -/
def State.Holds (s : State) (c lk : Nat) : Prop :=
  s.holder lk = some c ∨ (s.cpu c).pc = .own lk ∨ (s.cpu c).pc = .clear lk

variable {s t : State}

/-- A locked lock has one owner. `ncli` counts the locks that a CPU holds, and one more before the
`xchg` and before the last `popcli`. -/
structure Inv (owner : Nat → Nat) (held : Nat → Finset Nat) (s : State) : Prop where
  owns : ∀ c lk, lk ∈ held c ↔ s.locked lk ∧ owner lk = c
  holds : ∀ c lk, lk ∈ held c ↔ s.Holds c lk
  apart : ∀ c d lk, s.holder lk = some d → (s.cpu c).pc ≠ .own lk ∧ (s.cpu c).pc ≠ .clear lk
  depth : ∀ c, (s.cpu c).ncli = (held c).card + match (s.cpu c).pc with
    | .xchg _ | .pop => 1
    | _ => 0
  flag : ∀ c, if (s.cpu c).ncli = 0 then (s.cpu c).enabled = (s.cpu c).set
    else (s.cpu c).enabled = false ∧ (s.cpu c).intena = (s.cpu c).set

theorem Inv.step {owner : Nat → Nat} {held : Nat → Finset Nat} {event : Nat × Action}
    (inv : Inv owner held s) (moves : step s event = some t) : ∃ owner held, Inv owner held t := by
  obtain ⟨c, action⟩ := event
  obtain ⟨owns, holds, apart, depth, flag⟩ := inv
  unfold State.Holds at holds
  -- The three ways to hold a lock, apart, so that each is found where it is used.
  have named := fun c lk h => (holds c lk).mpr (.inl h)
  have own := fun c lk h => (holds c lk).mpr (.inr (.inl h))
  have clear := fun c lk h => (holds c lk).mpr (.inr (.inr h))
  unfold Spinlock.step at moves
  dsimp only at moves
  split at moves <;> (try split at moves) <;> try contradiction
  case h_7 =>
    obtain ⟨_, popped, rfl⟩ := Option.map_eq_some_iff.mp moves
    unfold Cpu.popcli at popped
    refine ⟨owner, held, ?_⟩
    constructor <;> grind [State.Holds, update_apply]
  all_goals cases moves
  case h_4.isFalse lk _ _ =>
    refine ⟨update owner lk c, update held c (insert lk (held c)), ?_⟩
    constructor <;> grind [State.Holds, update_apply]
  case h_6 lk _ =>
    refine ⟨owner, update held c ((held c).erase lk), ?_⟩
    constructor <;> grind [State.Holds, update_apply]
  all_goals refine ⟨owner, held, ?_⟩
  all_goals constructor <;> grind [State.Holds, update_apply, Cpu.pushcli]

/-- Spin locks exclude: one CPU at a time is between taking a lock and freeing it, and only while
the lock is locked and its own interrupts are off. A CPU without a lock has the interrupt flag it
had before, and the `popcli` of `release` does not panic. -/
theorem spin_locks_exclude {enabled : Nat → Bool}
    (reached : Reach step (fun _ _ => True) (boot enabled) s) (c lk : Nat) :
    (s.Holds c lk → s.locked lk ∧ (s.cpu c).enabled = false ∧ ∀ d, s.Holds d lk → d = c) ∧
      (s.locked lk → ∃ d, s.Holds d lk) ∧
      ((s.cpu c).pc = .outside → (∀ lk, ¬ s.Holds c lk) → (s.cpu c).enabled = (s.cpu c).set) ∧
      ((s.cpu c).pc = .pop → (s.cpu c).popcli.isSome) := by
  obtain ⟨owner, held, inv⟩ : ∃ owner held, Inv owner held s := by
    apply reached.invariant (fun s => ∃ owner held, Inv owner held s)
    · refine ⟨id, fun _ => ∅, ?_⟩
      constructor <;> simp [boot, State.Holds]
    · exact fun _ _ _ ⟨_, _, inv⟩ _ moves => inv.step moves
  simp only [← inv.holds]
  have depth := inv.depth c
  have flag := inv.flag c
  refine ⟨fun member => ?_, fun locked => ⟨owner lk, ?_⟩, fun out none => ?_, fun out => ?_⟩
  · have := Finset.card_pos.mpr ⟨lk, member⟩
    grind [inv.owns]
  · grind [inv.owns]
  · grind [Finset.eq_empty_of_forall_notMem none]
  · grind [Cpu.popcli]

/-- CPU 0 has taken lock 0, and CPU 1 spins. -/
theorem spin_locks_exclude_two : ∃ s : State, s.holder 0 = some 0 ∧
    (s.cpu 0).enabled = false ∧ ∀ d, s.Holds d 0 → d = 0 := by
  obtain ⟨s, reached, taken⟩ : ∃ s, Reach step (fun _ _ => True) (boot fun _ => true) s ∧
      s.holder 0 = some 0 :=
    exists_reach [(1, .acquire 0), (0, .acquire 0), (0, .next), (1, .next), (0, .next)]
      (by decide +kernel)
  exact ⟨s, taken, ((spin_locks_exclude reached 0 0).1 (.inl taken)).2⟩

end Xv6.Spinlock
