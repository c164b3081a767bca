import Xv6.Lib.Spin
import Xv6.Proc.Table

/-!
# Sleep locks

`acquiresleep` and `releasesleep` of `sleeplock.c` with the parts of `sleep` and `wakeup` they
use, each `acquire` and `release` of the two spin locks and each write between them a step of
its own. Any number of processes use one lock; others kill processes or call `wakeup`.

Interrupt handlers and the scheduler appear as processes too: what matters of them is that they
take `ptable.lock`. The lock that a process passes to the scheduler in `sched` is released
there, and taken again for the process before it continues.
-/

namespace Xv6.Proc.SleepLock

open Function Lib Option

/-- Where a process stands. -/
inductive Pc where
  /-- Neither holding the lock nor asking for it. -/
  | outside
  /-- About to `acquire(&lk->lk)` in `acquiresleep`, or again at the end of `sleep`. -/
  | enter
  /-- At `while (lk->locked)`. -/
  | test
  /-- In `sleep`, about to `acquire(&ptable.lock)`. -/
  | sleepLock
  /-- In `sleep`, about to `release(lk)`. -/
  | sleepUnlock
  /-- In `sleep`, about to set `p->chan` and `p->state`. -/
  | sleepSet
  /-- In `sched`, before the scheduler releases `ptable.lock`. -/
  | sched
  /-- Switched away. -/
  | parked
  /-- Back from `sched`, about to set `p->chan = 0`. -/
  | resumed
  /-- In `sleep`, about to `release(&ptable.lock)`. -/
  | tableUnlock
  /-- About to set `lk->locked = 1`. -/
  | take
  /-- About to `release(&lk->lk)` in `acquiresleep`. -/
  | leave
  /-- Between `acquiresleep` and `releasesleep`. -/
  | held
  /-- About to `acquire(&lk->lk)` in `releasesleep`. -/
  | drop
  /-- About to set `lk->locked = 0`. -/
  | clear
  /-- In `wakeup`, about to `acquire(&ptable.lock)`. -/
  | wakeLock
  /-- About to run `wakeup1`. -/
  | wake
  /-- In `wakeup`, about to `release(&ptable.lock)`. -/
  | wakeUnlock
  /-- About to `release(&lk->lk)` in `releasesleep`. -/
  | finish
  /-- About to `acquire(&ptable.lock)` in `kill`. -/
  | killLock (target : Nat)
  /-- About to wake the process that is killed. -/
  | kill (target : Nat)
  /-- About to `acquire(&ptable.lock)` in a `wakeup` of this lock's channel or of another. -/
  | notifyLock (own : Bool)
  /-- About to run the `wakeup1` of that `wakeup`. -/
  | notify (own : Bool)
  /-- About to `release(&ptable.lock)` in `kill` or `wakeup`. -/
  | unlock
  deriving DecidableEq

/-- The counters at which a process holds `lk->lk`. -/
def Pc.holdsLk : Pc → Bool
  | test | sleepLock | sleepUnlock | take | leave | clear | wakeLock | wake | wakeUnlock
  | finish => true
  | _ => false

/-- The counters at which a process holds `ptable.lock`. -/
def Pc.holdsTable : Pc → Bool
  | sleepUnlock | sleepSet | sched | resumed | tableUnlock | wake | wakeUnlock | kill _
  | notify _ | unlock => true
  | _ => false

/-- From `lk->locked = 1` to `lk->locked = 0`: the completed `acquiresleep`, what the process
does under the lock, and its `releasesleep` up to that write. -/
def Pc.owns : Pc → Bool
  | leave | held | drop | clear => true
  | _ => false

/-- A sleep lock and the processes that use it. -/
structure LockState where
  /-- Holder of `lk->lk`. -/
  lk : Option Nat
  /-- Holder of `ptable.lock`. -/
  table : Option Nat
  /-- `lk->locked`. -/
  locked : Bool
  /-- `lk->pid`. -/
  pid : Option Nat
  pc : Nat → Pc
  /-- `p->state`. -/
  state : Nat → ProcState
  /-- Whether `p->chan` is the address of the lock. -/
  onLock : Nat → Bool

namespace LockState

/-- Move one process. -/
def goto (s : LockState) (p : Nat) (pc : Pc) : LockState :=
  { s with pc := update s.pc p pc }

/-- `wakeup1(lk)`. -/
def wakeup1 (s : LockState) : LockState :=
  { s with state := fun q => if s.state q = .sleeping ∧ s.onLock q then .runnable else s.state q }

/-- The next step of a process, from where it stands. -/
def next (s : LockState) (p : Nat) : Option LockState :=
  match s.pc p with
  | .enter => if s.lk = none then some { s.goto p .test with lk := some p } else none
  | .test => some (s.goto p (if s.locked then .sleepLock else .take))
  | .sleepLock => if s.table = none then
      some { s.goto p .sleepUnlock with table := some p } else none
  | .sleepUnlock => some { s.goto p .sleepSet with lk := none }
  | .sleepSet => some { s.goto p .sched with
      state := update s.state p .sleeping
      onLock := update s.onLock p true }
  | .sched => some { s.goto p .parked with table := none }
  | .parked => if s.state p = .runnable ∧ s.table = none then
      some { s.goto p .resumed with
        table := some p
        state := update s.state p .running } else none
  | .resumed => some { s.goto p .tableUnlock with onLock := update s.onLock p false }
  | .tableUnlock => some { s.goto p .enter with table := none }
  | .take => some { s.goto p .leave with locked := true, pid := some p }
  | .leave => some { s.goto p .held with lk := none }
  | .drop => if s.lk = none then some { s.goto p .clear with lk := some p } else none
  | .clear => some { s.goto p .wakeLock with locked := false, pid := none }
  | .wakeLock => if s.table = none then some { s.goto p .wake with table := some p } else none
  | .wake => some (s.goto p .wakeUnlock).wakeup1
  | .wakeUnlock => some { s.goto p .finish with table := none }
  | .finish => some { s.goto p .outside with lk := none }
  | .killLock target => if s.table = none then
      some { s.goto p (.kill target) with table := some p } else none
  | .kill target => some { s.goto p .unlock with
      state := if s.state target = .sleeping then update s.state target .runnable
        else s.state }
  | .notifyLock own => if s.table = none then
      some { s.goto p (.notify own) with table := some p } else none
  | .notify own => some (if own then (s.goto p .unlock).wakeup1 else s.goto p .unlock)
  | .unlock => some { s.goto p .outside with table := none }
  | .outside | .held => none

end LockState

/-- What a process does. -/
inductive LockAction where
  /-- The next step of the call it is in. -/
  | next
  /-- Call `acquiresleep`. -/
  | acquiresleep
  /-- Call `releasesleep`. -/
  | releasesleep
  /-- Call `kill`. -/
  | kill (target : Nat)
  /-- Call `wakeup`. -/
  | wakeup (own : Bool)
  deriving DecidableEq

/-- One step of one process. -/
def lockStep (s : LockState) (event : Nat × LockAction) : Option LockState :=
  match event.2, s.pc event.1 with
  | .next, _ => s.next event.1
  | .acquiresleep, .outside => some (s.goto event.1 .enter)
  | .releasesleep, .held => some (s.goto event.1 .drop)
  | .kill target, .outside => some (s.goto event.1 (.killLock target))
  | .wakeup own, .outside => some (s.goto event.1 (.notifyLock own))
  | _, _ => none

/-- `initsleeplock`, with every process running elsewhere. -/
def initLock : LockState where
  lk := none
  table := none
  locked := false
  pid := none
  pc := fun _ => .outside
  state := fun _ => .running
  onLock := fun _ => false

/-- The two spin locks are held where the code holds them, `lk->locked` has one owner, and who
sleeps while it is clear is about to be woken. -/
structure LockInv (s : LockState) : Prop where
  spin : Guards s.lk (fun pc => pc.holdsLk) s.pc
  table : Guards s.table (fun pc => pc.holdsTable) s.pc
  owner : ∀ p, (s.pc p).owns → s.locked = true ∧ s.pid = some p
  owned : s.locked = true → ∃ p, (s.pc p).owns
  free : ∀ p, s.pc p = .take → s.locked = false
  busy : ∀ p, s.pc p = .sleepLock ∨ s.pc p = .sleepUnlock → s.locked = true
  asleep : ∀ p, s.state p = .sleeping → (s.pc p = .sched ∨ s.pc p = .parked) ∧ s.onLock p
  wake : ∀ p, s.pc p = .sleepSet ∨ s.state p = .sleeping →
    s.locked = true ∨ ∃ q, s.pc q = .wakeLock ∨ s.pc q = .wake

section Fields

variable (s : LockState) (p q : Nat) (new : Pc)

@[grind =] theorem goto_pc : (s.goto p new).pc q = if q = p then new else s.pc q := by
  simp [LockState.goto, update_apply]

@[grind =] theorem goto_state : (s.goto p new).state = s.state := rfl
@[grind =] theorem goto_onLock : (s.goto p new).onLock = s.onLock := rfl
@[grind =] theorem wakeup1_pc : s.wakeup1.pc q = s.pc q := rfl
@[grind =] theorem wakeup1_onLock : s.wakeup1.onLock = s.onLock := rfl
@[grind =] theorem wakeup1_state : s.wakeup1.state q =
    if s.state q = .sleeping ∧ s.onLock q then .runnable else s.state q := rfl

end Fields

/-- Moves of a process that concern the spin locks only. -/
structure Plain (locked : Bool) (old new : Pc) : Prop where
  owns : new.owns = old.owns
  free : new = .take → locked = false
  busy : new = .sleepLock ∨ new = .sleepUnlock ∨ new = .sleepSet → locked = true
  parks : old = .sched ∨ old = .parked → new = .sched ∨ new = .parked
  wakes : (old = .wakeLock → new = .wake) ∧ old ≠ .wake

namespace LockInv

variable {s t : LockState} {p : Nat} (h : LockInv s) {old new : Pc}

include h

/-- A process moves on and leaves `lk->locked` as it is. -/
theorem kept (here : s.pc p = old) (pc : ∀ q, t.pc q = if q = p then new else s.pc q)
    (owns : new.owns = old.owns) (free : new = .take → s.locked = false)
    (busy : new = .sleepLock ∨ new = .sleepUnlock → s.locked = true)
    (same : t.locked = s.locked ∧ t.pid = s.pid) (spin : Guards t.lk (fun pc => pc.holdsLk) t.pc)
    (table : Guards t.table (fun pc => pc.holdsTable) t.pc)
    (asleep : ∀ q, t.state q = .sleeping → (t.pc q = .sched ∨ t.pc q = .parked) ∧ t.onLock q)
    (wake : ∀ q, t.pc q = .sleepSet ∨ t.state q = .sleeping →
      t.locked = true ∨ ∃ q, t.pc q = .wakeLock ∨ t.pc q = .wake) : LockInv t where
  spin := spin
  table := table
  owner q := by
    have := h.owner q
    grind
  owned locked := by
    obtain ⟨q, owner⟩ := h.owned (same.1 ▸ locked)
    exact ⟨q, by grind⟩
  free q := by
    have := h.free q
    grind
  busy q := by
    have := h.busy q
    grind
  asleep := asleep
  wake := wake

/-- A process moves on and at most takes a spin lock or gives one back. -/
theorem moved (here : s.pc p = old) (plain : Plain s.locked old new)
    (pc : ∀ q, t.pc q = if q = p then new else s.pc q)
    (same : t.locked = s.locked ∧ t.pid = s.pid ∧ t.state = s.state ∧ t.onLock = s.onLock)
    (spin : Guards t.lk (fun pc => pc.holdsLk) t.pc)
    (table : Guards t.table (fun pc => pc.holdsTable) t.pc) : LockInv t := by
  refine h.kept here pc plain.owns plain.free (fun place => plain.busy (by tauto))
    ⟨same.1, same.2.1⟩ spin table (fun q => ?_) fun q sleeps => ?_
  · have := h.asleep q
    have := plain.parks
    grind
  · have := h.wake q
    have := plain.busy
    have := plain.wakes
    grind

/-- A process moves on. -/
theorem goto (here : s.pc p = old) (plain : Plain s.locked old new)
    (spin : new.holdsLk = old.holdsLk) (table : new.holdsTable = old.holdsTable) :
    LockInv (s.goto p new) :=
  h.moved here plain (fun q => goto_pc s p q _) ⟨rfl, rfl, rfl, rfl⟩
    (h.spin.keep (by rw [here, spin])) (h.table.keep (by rw [here, table]))

/-- `p->state = SLEEPING`, with `ptable.lock` held. -/
theorem sleepSet (here : s.pc p = .sleepSet) :
    LockInv { s.goto p .sched with
    state := update s.state p .sleeping
    onLock := update s.onLock p true } := by
  refine h.kept here (fun q => goto_pc s p q _) rfl (by simp) (by simp) ⟨rfl, rfl⟩
    (h.spin.keep (by simp [here, Pc.holdsLk])) (h.table.keep (by simp [here, Pc.holdsTable]))
    (fun q => ?_) fun q sleeps => ?_
  · have := h.asleep q
    grind [update_apply]
  · have own := h.wake p (.inl here)
    have := h.wake q
    by_cases locked : s.locked = true
    · exact .inl locked
    · obtain ⟨r, waker⟩ : ∃ r, s.pc r = .wakeLock ∨ s.pc r = .wake := by grind
      exact .inr ⟨r, by grind [update_apply]⟩

/-- The process continues: it is no longer asleep. -/
theorem resume (here : s.pc p = .parked) (free : s.table = none) :
    LockInv { s.goto p .resumed with
      table := some p
      state := update s.state p .running } := by
  have table := h.table
  rw [free] at table
  refine h.kept here (fun q => goto_pc s p q _) rfl (by simp) (by simp) ⟨rfl, rfl⟩
    (h.spin.keep (by simp [here, Pc.holdsLk])) (table.acquire (by simp [Pc.holdsTable]))
    (fun q => ?_) fun q sleeps => ?_
  · have := h.asleep q
    grind [update_apply]
  · have := h.wake q
    by_cases locked : s.locked = true
    · exact .inl locked
    · obtain ⟨r, waker⟩ : ∃ r, s.pc r = .wakeLock ∨ s.pc r = .wake := by grind [update_apply]
      exact .inr ⟨r, by grind⟩

/-- `p->chan = 0` for a process that runs. -/
theorem unchan (here : s.pc p = .resumed) :
    LockInv { s.goto p .tableUnlock with onLock := update s.onLock p false } := by
  have off : LockInv { s with onLock := update s.onLock p false } := { h with
    asleep := by
      intro q
      have := h.asleep q
      grind [update_apply] }
  exact off.moved here (by constructor <;> simp [Pc.owns]) (fun q => goto_pc s p q _)
    ⟨rfl, rfl, rfl, rfl⟩ (h.spin.keep (by simp [here, Pc.holdsLk]))
    (h.table.keep (by simp [here, Pc.holdsTable]))

/-- `lk->locked = 1`. -/
theorem take (here : s.pc p = .take) :
    LockInv { s.goto p .leave with locked := true, pid := some p } where
  spin := h.spin.keep (by simp [here, Pc.holdsLk])
  table := h.table.keep (by simp [here, Pc.holdsTable])
  owner q := by
    have := h.owner q
    have := h.free p here
    grind [update_apply]
  owned _ := ⟨p, by simp [LockState.goto, Pc.owns]⟩
  free q atTake := by
    -- Another process at this point would hold `lk->lk` as well.
    have := h.spin.exclusive (p := p) (q := q)
    grind [update_apply, Pc.holdsLk]
  busy _ _ := rfl
  asleep q := by
    have := h.asleep q
    grind [update_apply]
  wake _ _ := .inl rfl

/-- `lk->locked = 0`; the process goes on to wake the sleepers. -/
theorem clear (here : s.pc p = .clear) :
    LockInv { s.goto p .wakeLock with locked := false, pid := none } where
  spin := h.spin.keep (by simp [here, Pc.holdsLk])
  table := h.table.keep (by simp [here, Pc.holdsTable])
  owner q owner := by
    have := h.owner q
    have := h.owner p
    grind [update_apply, Pc.owns]
  owned locked := by simp at locked
  free _ _ := rfl
  busy q atSleep := by
    have := h.spin.exclusive (p := p) (q := q)
    grind [update_apply, Pc.holdsLk]
  asleep q := by
    have := h.asleep q
    grind [update_apply]
  wake _ _ := .inr ⟨p, by simp [LockState.goto]⟩

/-- States change from sleeping to runnable only. -/
theorem woken {state : Nat → ProcState} (wakes : ∀ q, state q = .sleeping → s.state q = .sleeping) :
    LockInv { s with state := state } := { h with
  asleep := fun q sleeping => h.asleep q (wakes q sleeping)
  wake := fun q sleeps => h.wake q (sleeps.imp_right (wakes q)) }

/-- `wakeup1(lk)` with both spin locks held: nobody is left asleep, and nobody is about to
sleep. -/
theorem wakeAll (here : s.pc p = .wake) : LockInv (s.goto p .wakeUnlock).wakeup1 := by
  have nobody : ∀ q, ¬(s.state q = .sleeping ∧ ¬s.onLock q) ∧ s.pc q ≠ .sleepSet := by
    intro q
    have := h.asleep q
    have := h.table.exclusive (p := p) (q := q)
    grind [Pc.holdsTable]
  refine h.kept here (fun q => goto_pc s p q _) rfl (by simp) (by simp) ⟨rfl, rfl⟩
    (h.spin.keep (by simp [here, Pc.holdsLk])) (h.table.keep (by simp [here, Pc.holdsTable]))
    (fun q => ?_) fun q => ?_
  · have := nobody q
    grind
  · have := nobody q
    grind [update_apply]

section Spin

variable (here : s.pc p = old) (plain : Plain s.locked old new)

include here plain

/-- A process takes `lk->lk`. -/
theorem lockSpin (free : s.lk = none) (inside : new.holdsLk)
    (same : new.holdsTable = old.holdsTable) : LockInv { s.goto p new with lk := some p } := by
  have spin : Guards none (fun pc => pc.holdsLk) s.pc := free ▸ h.spin
  exact h.moved here plain (fun q => goto_pc s p q _) ⟨rfl, rfl, rfl, rfl⟩ (spin.acquire inside)
    (h.table.keep (by rw [here, same]))

/-- A process gives `lk->lk` back. -/
theorem unlockSpin (inside : old.holdsLk) (outside : new.holdsLk = false)
    (same : new.holdsTable = old.holdsTable) : LockInv { s.goto p new with lk := none } :=
  h.moved here plain (fun q => goto_pc s p q _) ⟨rfl, rfl, rfl, rfl⟩
    (h.spin.release (here ▸ inside) (by simp [outside])) (h.table.keep (by rw [here, same]))

/-- A process takes `ptable.lock`. -/
theorem lockTable (free : s.table = none) (inside : new.holdsTable)
    (same : new.holdsLk = old.holdsLk) : LockInv { s.goto p new with table := some p } := by
  have table : Guards none (fun pc => pc.holdsTable) s.pc := free ▸ h.table
  exact h.moved here plain (fun q => goto_pc s p q _) ⟨rfl, rfl, rfl, rfl⟩
    (h.spin.keep (by rw [here, same])) (table.acquire inside)

/-- A process gives `ptable.lock` back. -/
theorem unlockTable (inside : old.holdsTable) (outside : new.holdsTable = false)
    (same : new.holdsLk = old.holdsLk) : LockInv { s.goto p new with table := none } :=
  h.moved here plain (fun q => goto_pc s p q _) ⟨rfl, rfl, rfl, rfl⟩
    (h.spin.keep (by rw [here, same])) (h.table.release (here ▸ inside) (by simp [outside]))

end Spin

/-- One step of a call. -/
theorem next (moves : s.next p = some t) : LockInv t := by
  unfold LockState.next at moves
  cases here : s.pc p <;> simp only [here] at moves
  -- Most steps only move the process and take or release a spin lock.
  case enter | drop =>
    obtain ⟨free, ⟨⟩⟩ := ite_none_right_eq_some.mp moves
    exact h.lockSpin here (by constructor <;> simp [Pc.owns]) free rfl rfl
  case wakeLock | killLock | notifyLock =>
    obtain ⟨free, ⟨⟩⟩ := ite_none_right_eq_some.mp moves
    exact h.lockTable here (by constructor <;> simp [Pc.owns]) free rfl rfl
  case sched | tableUnlock | wakeUnlock | unlock =>
    cases moves
    exact h.unlockTable here (by constructor <;> simp [Pc.owns]) rfl rfl rfl
  case leave | finish =>
    cases moves
    exact h.unlockSpin here (by constructor <;> simp [Pc.owns]) rfl rfl rfl
  case test =>
    cases moves
    exact h.goto here (by constructor <;> cases s.locked <;> simp [Pc.owns])
      (by cases s.locked <;> rfl) (by cases s.locked <;> rfl)
  case sleepLock =>
    obtain ⟨free, ⟨⟩⟩ := ite_none_right_eq_some.mp moves
    have locked := h.busy p (.inl here)
    exact h.lockTable here (by constructor <;> simp [Pc.owns, locked]) free rfl rfl
  case sleepUnlock =>
    cases moves
    have locked := h.busy p (.inr here)
    exact h.unlockSpin here (by constructor <;> simp [Pc.owns, locked]) rfl rfl rfl
  case sleepSet =>
    cases moves
    exact h.sleepSet here
  case parked =>
    obtain ⟨⟨_, free⟩, ⟨⟩⟩ := ite_none_right_eq_some.mp moves
    exact h.resume here free
  case resumed =>
    cases moves
    exact h.unchan here
  case take =>
    cases moves
    exact h.take here
  case clear =>
    cases moves
    exact h.clear here
  case wake =>
    cases moves
    exact h.wakeAll here
  case kill target =>
    cases moves
    have gone : LockInv (s.goto p .unlock) :=
      h.goto here (by constructor <;> simp [Pc.owns]) rfl rfl
    refine gone.woken fun q => ?_
    split <;> grind [update_apply]
  case notify own =>
    cases moves
    have gone : LockInv (s.goto p .unlock) :=
      h.goto here (by constructor <;> simp [Pc.owns]) rfl rfl
    cases own with
    | false => exact gone
    | true => exact gone.woken fun q => by grind
  case outside | held => contradiction

/-- One step of a process. -/
theorem step {action : LockAction} (moves : lockStep s (p, action) = some t) : LockInv t := by
  unfold lockStep at moves
  simp only at moves
  split at moves
  case h_1 => exact h.next moves
  case h_2 here | h_3 here | h_4 here | h_5 here =>
    cases moves
    exact h.goto here (by constructor <;> simp [Pc.owns]) rfl rfl
  case h_6 => contradiction

end LockInv

theorem lockInv_init : LockInv initLock where
  spin p := by simp [initLock, Pc.holdsLk]
  table p := by simp [initLock, Pc.holdsTable]
  owner p := by simp [initLock, Pc.owns]
  owned := by simp [initLock]
  free p := by simp [initLock]
  busy p := by simp [initLock]
  asleep p := by simp [initLock]
  wake p := by simp [initLock]

theorem lockInv_of_reach {allowed : LockState → Nat × LockAction → Prop} {s : LockState}
    (reached : Reach lockStep allowed initLock s) : LockInv s :=
  reached.invariant LockInv lockInv_init fun _ _ _ inv _ moves => inv.step moves

/-- Sleep locks are exclusive, up to the write `lk->locked = 0` in `releasesleep`, and lose no
wakeup: with both spin locks free nobody sleeps on a lock that is free. -/
theorem sleeplock_exclusive_no_lost_wakeup {s : LockState}
    (reached : Reach lockStep (fun _ _ => True) initLock s) :
    (∀ p q, (s.pc p).owns → (s.pc q).owns → p = q) ∧
    (s.lk = none → s.table = none →
      ∀ p, ¬(s.state p = .sleeping ∧ s.onLock p ∧ s.locked = false)) := by
  have inv := lockInv_of_reach reached
  refine ⟨fun p q here there => ?_, fun spinFree _ p => ?_⟩
  · exact Option.some.inj ((inv.owner p here).2.symm.trans (inv.owner q there).2)
  · rintro ⟨sleeping, _, unlocked⟩
    have spin := inv.spin
    rw [spinFree] at spin
    obtain locked | ⟨q, waker⟩ := inv.wake p (.inr sleeping)
    · simp [unlocked] at locked
    · -- Whoever is about to wake the sleeper holds `lk->lk`.
      apply spin.not_holds (p := q)
      rcases waker with waker | waker <;> simp [waker, Pc.holdsLk]

/-- Process 0 takes the lock, process 1 goes to sleep on it. -/
def sleepOnHeld : List (Nat × LockAction) :=
  (0, .acquiresleep) :: List.replicate 4 (0, .next) ++
    (1, .acquiresleep) :: List.replicate 6 (1, .next)

/-- Both spin locks are free, process 0 owns the lock and process 1 sleeps on it. -/
theorem sleeplock_exclusive_no_lost_wakeup_two : ∃ s : LockState, s.lk = none ∧ s.table = none ∧
    (s.pc 0).owns ∧ s.state 1 = .sleeping ∧ s.onLock 1 ∧
    (∀ q, (s.pc q).owns → 0 = q) ∧ s.locked = true := by
  obtain ⟨s, reached, spinFree, tableFree, owner, sleeping, chan⟩ :
      ∃ s, Reach lockStep (fun _ _ => True) initLock s ∧ s.lk = none ∧ s.table = none ∧
        (s.pc 0).owns ∧ s.state 1 = .sleeping ∧ s.onLock 1 :=
    exists_reach sleepOnHeld (by decide +kernel)
  obtain ⟨exclusive, wakeup⟩ := sleeplock_exclusive_no_lost_wakeup reached
  refine ⟨s, spinFree, tableFree, owner, sleeping, chan, fun q => exclusive 0 q owner, ?_⟩
  have := wakeup spinFree tableFree 1
  simpa [sleeping, chan] using this

end Xv6.Proc.SleepLock
