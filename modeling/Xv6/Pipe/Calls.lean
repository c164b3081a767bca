import Xv6.Lib.Spin
import Xv6.Proc.Table

/-!
# Pipes

`pipewrite`, `piperead` and `pipeclose` of `pipe.c` with the parts of `sleep`, `wakeup` and `kill`
they meet, for any number of processes that use one pipe. Each `acquire` and `release` of the
pipe's lock and of `ptable.lock` is a step, and so is each byte that is copied.

A process calls `pipewrite` or `piperead` only while it has a descriptor of the end, and
`fileclose` calls `pipeclose` for the last one: `holders` lists the processes with a descriptor
of an end, once for each descriptor, so its length is `f->ref`.
-/

namespace Xv6.Pipe

open Function Lib Xv6.Proc Option

variable {α : Type}

/-- `PIPESIZE`. -/
def pipeSize : Nat := 512

/-- A value of type `uint`. -/
def uint (n : Nat) : Nat := n % 2 ^ 32

/-- The channels of a pipe: `&p->nread` and `&p->nwrite`. -/
inductive Chan where
  | nread
  | nwrite
  deriving DecidableEq

/-- A call that is about to return, with its result. -/
inductive Result where
  /-- `pipewrite`. -/
  | wrote (value : Int)
  /-- `piperead` for `n` bytes, after it copied `i`. -/
  | read (n i : Nat)
  /-- `piperead` of a killed process: -1. -/
  | readKilled
  /-- `pipeclose`. -/
  | closed
  deriving DecidableEq

/-- Where a `wakeup` returns to. -/
inductive Then (α : Type) where
  /-- In `pipewrite`, to `sleep`. -/
  | sleep (n : Nat) (rest : List α)
  /-- To the end of `pipewrite`. -/
  | wrote (n : Nat)
  /-- To the end of `piperead`. -/
  | read (n i : Nat)
  /-- To the end of `pipeclose`. -/
  | closed (writable : Bool)
  deriving DecidableEq

/-- The channel of that `wakeup`. -/
def Then.chan : Then α → Chan
  | sleep .. | wrote .. | closed true => .nread
  | read .. | closed false => .nwrite

/-- A call that goes to sleep. -/
inductive Sleeper (α : Type) where
  | writer (n : Nat) (rest : List α)
  | reader (n : Nat)
  deriving DecidableEq

/-- The channel it sleeps on. -/
def Sleeper.chan : Sleeper α → Chan
  | writer .. => .nwrite
  | reader .. => .nread

/-- Where a process stands. `n` is the argument of the call, `rest` what is still to be
written. -/
inductive Pc (α : Type) where
  /-- In no call on the pipe. -/
  | outside
  /-- About to `acquire(&p->lock)` in `pipewrite`, or again at the end of `sleep`. -/
  | writeEnter (n : Nat) (rest : List α)
  /-- At the loops of `pipewrite`; whether it has stored a byte since it took the lock. -/
  | writeLoop (n : Nat) (rest : List α) (stored : Bool)
  /-- About to `acquire(&p->lock)` in `piperead`, or again at the end of `sleep`. -/
  | readEnter (n : Nat)
  /-- At the first loop of `piperead`. -/
  | readTest (n : Nat)
  /-- At the second loop of `piperead`. -/
  | readLoop (n i : Nat)
  /-- About to `acquire(&p->lock)` in `pipeclose`. -/
  | closeEnter (writable : Bool)
  /-- About to clear `writeopen` or `readopen`. -/
  | closeSet (writable : Bool)
  /-- In `wakeup`, about to `acquire(&ptable.lock)`. -/
  | wakeLock (next : Then α)
  /-- About to run `wakeup1`. -/
  | wake (next : Then α)
  /-- In `wakeup`, about to `release(&ptable.lock)`. -/
  | wakeUnlock (next : Then α)
  /-- In `sleep`, about to `acquire(&ptable.lock)`. -/
  | sleepLock (call : Sleeper α)
  /-- In `sleep`, about to `release(&p->lock)`. -/
  | sleepUnlock (call : Sleeper α)
  /-- In `sleep`, about to set `p->chan` and `p->state`. -/
  | sleepSet (call : Sleeper α)
  /-- In `sched`, before the scheduler releases `ptable.lock`. -/
  | sched (call : Sleeper α)
  /-- Switched away. -/
  | parked (call : Sleeper α)
  /-- Back from `sched`, about to set `p->chan = 0`. -/
  | resumed (call : Sleeper α)
  /-- In `sleep`, about to `release(&ptable.lock)`. -/
  | tableUnlock (call : Sleeper α)
  /-- About to `release(&p->lock)` and return. -/
  | ret (result : Result)
  /-- About to `acquire(&ptable.lock)` in `kill`. -/
  | killLock (target : Nat)
  /-- About to set `killed`. -/
  | kill (target : Nat)
  /-- About to `release(&ptable.lock)` in `kill`. -/
  | unlock
  deriving DecidableEq

/-- Behind a `wakeup`. -/
def Then.next : Then α → Pc α
  | sleep n rest => .sleepLock (.writer n rest)
  | wrote n => .ret (.wrote n)
  | read n i => .ret (.read n i)
  | closed _ => .ret .closed

/-- Behind a `sleep`, but for the pipe's lock. -/
def Sleeper.again : Sleeper α → Pc α
  | writer n rest => .writeEnter n rest
  | reader n => .readEnter n

/-- `struct pipe` and the processes that use it. -/
structure PipeState (α : Type) where
  /-- Holder of `p->lock`. -/
  lock : Option Nat
  /-- Holder of `ptable.lock`. -/
  table : Option Nat
  /-- `p->data`. -/
  data : Nat → α
  /-- `p->nread`. -/
  nread : Nat
  /-- `p->nwrite`. -/
  nwrite : Nat
  /-- `p->readopen`. -/
  readopen : Bool
  /-- `p->writeopen`. -/
  writeopen : Bool
  /-- Whether `pipeclose` has freed the pipe. -/
  freed : Bool
  /-- The processes with a descriptor of an end; `true` is the write end. -/
  holders : Bool → List Nat
  pc : Nat → Pc α
  /-- `state` of each process. -/
  state : Nat → ProcState
  /-- `chan` of each process, if it is one of the pipe's. -/
  chan : Nat → Option Chan
  /-- `killed` of each process. -/
  killed : Nat → Bool
  /-- Every byte stored by writers, oldest first. -/
  stored : List α
  /-- Every byte handed to readers, oldest first. -/
  handed : List α

namespace PipeState

/-- Move one process. -/
def goto (s : PipeState α) (p : Nat) (pc : Pc α) : PipeState α :=
  { s with pc := update s.pc p pc }

/-- `wakeup1`. -/
def wakeup1 (s : PipeState α) (chan : Chan) : PipeState α :=
  { s with state := fun q =>
      if s.state q = .sleeping ∧ s.chan q = some chan then .runnable else s.state q }

/-- `p->nwrite == p->nread + PIPESIZE`. -/
def Full (s : PipeState α) : Prop := s.nwrite = uint (s.nread + pipeSize)

/-- `p->nread == p->nwrite`. -/
def Empty (s : PipeState α) : Prop := s.nread = s.nwrite

instance (s : PipeState α) : Decidable s.Full := inferInstanceAs (Decidable (_ = _))

instance (s : PipeState α) : Decidable s.Empty := inferInstanceAs (Decidable (_ = _))

/-- One iteration of the loops of `pipewrite`. -/
def writeStep (s : PipeState α) (p n : Nat) : List α → PipeState α
  | [] => s.goto p (.wakeLock (.wrote n))
  | byte :: rest =>
    if s.Full then
      if s.readopen = false ∨ s.killed p then s.goto p (.ret (.wrote (-1)))
      else s.goto p (.wakeLock (.sleep n (byte :: rest)))
    else { s.goto p (.writeLoop n rest true) with
      data := update s.data (s.nwrite % pipeSize) byte
      nwrite := uint (s.nwrite + 1)
      stored := s.stored ++ [byte] }

/-- One iteration of the first loop of `piperead`. -/
def readTest (s : PipeState α) (p n : Nat) : PipeState α :=
  if s.Empty ∧ s.writeopen then
    if s.killed p then s.goto p (.ret .readKilled) else s.goto p (.sleepLock (.reader n))
  else s.goto p (.readLoop n 0)

/-- One iteration of the second loop of `piperead`. -/
def readStep (s : PipeState α) (p n i : Nat) : PipeState α :=
  if n ≤ i ∨ s.Empty then s.goto p (.wakeLock (.read n i))
  else { s.goto p (.readLoop n (i + 1)) with
    nread := uint (s.nread + 1)
    handed := s.handed ++ [s.data (s.nread % pipeSize)] }

/-- The assignment of `pipeclose`. -/
def closeSet (s : PipeState α) (p : Nat) : Bool → PipeState α
  | true => { s.goto p (.wakeLock (.closed true)) with writeopen := false }
  | false => { s.goto p (.wakeLock (.closed false)) with readopen := false }

/-- `release(&p->lock)` at the end of a call; `pipeclose` of the second end frees the pipe. -/
def finish (s : PipeState α) (p : Nat) (result : Result) : PipeState α :=
  { s.goto p .outside with
    lock := none
    freed := s.freed || result == .closed && !s.readopen && !s.writeopen }

/-- The effect of `kill` on its target. -/
def kill (s : PipeState α) (target : Nat) : PipeState α :=
  { s with
    killed := update s.killed target true
    state := if s.state target = .sleeping then update s.state target .runnable
      else s.state }

/-- The next step of a process, from where it stands. -/
def next (s : PipeState α) (p : Nat) : Option (PipeState α) :=
  match s.pc p with
  | .outside => none
  | .writeEnter n rest => if s.lock = none then
      some { s.goto p (.writeLoop n rest false) with lock := some p } else none
  | .writeLoop n rest _ => some (s.writeStep p n rest)
  | .readEnter n => if s.lock = none then
      some { s.goto p (.readTest n) with lock := some p } else none
  | .readTest n => some (s.readTest p n)
  | .readLoop n i => some (s.readStep p n i)
  | .closeEnter writable => if s.lock = none then
      some { s.goto p (.closeSet writable) with lock := some p } else none
  | .closeSet writable => some (s.closeSet p writable)
  | .wakeLock next => if s.table = none then
      some { s.goto p (.wake next) with table := some p } else none
  | .wake next => some ((s.goto p (.wakeUnlock next)).wakeup1 next.chan)
  | .wakeUnlock next => some { s.goto p next.next with table := none }
  | .sleepLock call => if s.table = none then
      some { s.goto p (.sleepUnlock call) with table := some p } else none
  | .sleepUnlock call => some { s.goto p (.sleepSet call) with lock := none }
  | .sleepSet call => some { s.goto p (.sched call) with
      state := update s.state p .sleeping
      chan := update s.chan p (some call.chan) }
  | .sched call => some { s.goto p (.parked call) with table := none }
  | .parked call => if s.state p = .runnable ∧ s.table = none then
      some { s.goto p (.resumed call) with
        table := some p
        state := update s.state p .running } else none
  | .resumed call => some { s.goto p (.tableUnlock call) with
      chan := update s.chan p none }
  | .tableUnlock call => some { s.goto p call.again with table := none }
  | .ret result => some (s.finish p result)
  | .killLock target => if s.table = none then
      some { s.goto p (.kill target) with table := some p } else none
  | .kill target => some ((s.goto p .unlock).kill target)
  | .unlock => some { s.goto p .outside with table := none }

/-- `fileclose` by a process with a descriptor of the end. -/
def close (s : PipeState α) (p : Nat) (writable : Bool) : PipeState α :=
  let left := (s.holders writable).erase p
  let s := { s with holders := update s.holders writable left }
  if left = [] then s.goto p (.closeEnter writable) else s

end PipeState

open PipeState

/-- What a process does. -/
inductive PipeAction (α : Type) where
  /-- The next step of the call it is in. -/
  | next
  /-- Call `pipewrite`. -/
  | write (bytes : List α)
  /-- Call `piperead`. -/
  | read (n : Nat)
  /-- Close a descriptor. -/
  | close (writable : Bool)
  /-- Give a process a descriptor, by `fork` or `dup`. -/
  | share (writable : Bool) (q : Nat)
  /-- Call `kill`. -/
  | kill (target : Nat)
  deriving DecidableEq

/-- One step of one process. -/
def pipeStep (s : PipeState α) (event : Nat × PipeAction α) : Option (PipeState α) :=
  match event.2, s.pc event.1 with
  | .next, _ => s.next event.1
  | .write bytes, .outside => if event.1 ∈ s.holders true then
      some (s.goto event.1 (.writeEnter bytes.length bytes)) else none
  | .read n, .outside => if event.1 ∈ s.holders false then
      some (s.goto event.1 (.readEnter n)) else none
  | .close writable, .outside => if event.1 ∈ s.holders writable then
      some (s.close event.1 writable) else none
  | .share writable q, .outside => if event.1 ∈ s.holders writable then
      some { s with holders := update s.holders writable (q :: s.holders writable) }
      else none
  | .kill target, .outside => some (s.goto event.1 (.killLock target))
  | _, _ => none

/-- After `sys_pipe` in a process: it has a descriptor of each end. The page may hold
anything. -/
def initPipe (data : Nat → α) (creator : Nat) : PipeState α where
  lock := none
  table := none
  data := data
  nread := 0
  nwrite := 0
  readopen := true
  writeopen := true
  freed := false
  holders := fun _ => [creator]
  pc := fun _ => .outside
  state := fun _ => .running
  chan := fun _ => none
  killed := fun _ => false
  stored := []
  handed := []

/-! ## The two locks -/

/-- The counters at which a process holds `p->lock`. -/
def Pc.holdsLock : Pc α → Bool
  | writeLoop .. | readTest _ | readLoop .. | closeSet _ | wakeLock _ | wake _ | wakeUnlock _
  | sleepLock _ | sleepUnlock _ | ret _ => true
  | _ => false

/-- The counters at which a process holds `ptable.lock`. -/
def Pc.holdsTable : Pc α → Bool
  | wake _ | wakeUnlock _ | sleepUnlock _ | sleepSet _ | sched _ | resumed _ | tableUnlock _
  | kill _ | unlock => true
  | _ => false

/-- Both locks are held where the code holds them. -/
structure Locked (s : PipeState α) : Prop where
  lock : Guards s.lock (fun pc => pc.holdsLock) s.pc
  table : Guards s.table (fun pc => pc.holdsTable) s.pc

namespace Locked

variable {s t : PipeState α} {p : Nat} {old new : Pc α} (h : Locked s)

include h

section

variable (here : s.pc p = old)

include here

/-- A step that leaves both locks alone. -/
theorem keep (pc : t.pc = update s.pc p new) (locks : t.lock = s.lock ∧ t.table = s.table)
    (lock : new.holdsLock = old.holdsLock) (table : new.holdsTable = old.holdsTable) :
    Locked t where
  lock := by
    rw [pc, locks.1]
    exact h.lock.keep (by rw [here, lock])
  table := by
    rw [pc, locks.2]
    exact h.table.keep (by rw [here, table])

/-- The pipe's lock is taken. -/
theorem acquire (free : s.lock = none) (lock : new.holdsLock)
    (table : new.holdsTable = old.holdsTable) : Locked { s.goto p new with lock := some p } where
  lock := by
    have spin : Guards none (fun pc => pc.holdsLock) s.pc := free ▸ h.lock
    exact spin.acquire lock
  table := h.table.keep (by rw [here, table])

/-- The pipe's lock is given back. -/
theorem release (held : old.holdsLock) (pc : t.pc = update s.pc p new)
    (locks : t.lock = none ∧ t.table = s.table) (lock : new.holdsLock = false)
    (table : new.holdsTable = old.holdsTable) : Locked t where
  lock := by
    rw [pc, locks.1]
    exact h.lock.release (here ▸ held) (by simp [lock])
  table := by
    rw [pc, locks.2]
    exact h.table.keep (by rw [here, table])

/-- `ptable.lock` is taken. -/
theorem acquireTable (free : s.table = none) (pc : t.pc = update s.pc p new)
    (locks : t.lock = s.lock ∧ t.table = some p) (lock : new.holdsLock = old.holdsLock)
    (table : new.holdsTable) : Locked t where
  lock := by
    rw [pc, locks.1]
    exact h.lock.keep (by rw [here, lock])
  table := by
    have spin : Guards none (fun pc => pc.holdsTable) s.pc := free ▸ h.table
    rw [pc, locks.2]
    exact spin.acquire table

/-- `ptable.lock` is given back. -/
theorem releaseTable (held : old.holdsTable) (lock : new.holdsLock = old.holdsLock)
    (table : new.holdsTable = false) : Locked { s.goto p new with table := none } where
  lock := h.lock.keep (by rw [here, lock])
  table := h.table.release (here ▸ held) (by simp [table])

end

/-- A step of a call takes one of the locks, gives one back or leaves both alone. -/
theorem next (moves : s.next p = some t) : Locked t := by
  unfold PipeState.next at moves
  cases here : s.pc p <;> simp only [here] at moves
  case outside => contradiction
  case writeEnter | readEnter | closeEnter =>
    obtain ⟨free, ⟨⟩⟩ := ite_none_right_eq_some.mp moves
    exact h.acquire here free rfl rfl
  case writeLoop n rest stored =>
    cases moves
    cases rest with
    | nil => exact h.keep here rfl ⟨rfl, rfl⟩ rfl rfl
    | cons byte rest =>
      unfold writeStep
      split_ifs <;> exact h.keep here rfl ⟨rfl, rfl⟩ rfl rfl
  case readTest n =>
    cases moves
    unfold PipeState.readTest
    split_ifs <;> exact h.keep here rfl ⟨rfl, rfl⟩ rfl rfl
  case readLoop n i =>
    cases moves
    unfold readStep
    split_ifs <;> exact h.keep here rfl ⟨rfl, rfl⟩ rfl rfl
  case closeSet writable =>
    cases moves
    cases writable <;> exact h.keep here rfl ⟨rfl, rfl⟩ rfl rfl
  case wakeLock | sleepLock | killLock =>
    obtain ⟨free, ⟨⟩⟩ := ite_none_right_eq_some.mp moves
    exact h.acquireTable here free rfl ⟨rfl, rfl⟩ rfl rfl
  case parked call =>
    obtain ⟨⟨_, free⟩, ⟨⟩⟩ := ite_none_right_eq_some.mp moves
    exact h.acquireTable here free rfl ⟨rfl, rfl⟩ rfl rfl
  case wakeUnlock after | tableUnlock after =>
    cases moves
    cases after <;> exact h.releaseTable here rfl rfl rfl
  case sched | unlock =>
    cases moves
    exact h.releaseTable here rfl rfl rfl
  case sleepUnlock | ret =>
    cases moves
    exact h.release here rfl rfl ⟨rfl, rfl⟩ rfl rfl
  case wake | sleepSet | resumed | kill =>
    cases moves
    exact h.keep here rfl ⟨rfl, rfl⟩ rfl rfl

omit h in
/-- Nobody holds a lock of a new pipe. -/
theorem init (data : Nat → α) (creator : Nat) : Locked (initPipe data creator) where
  lock p := by simp [initPipe, Pc.holdsLock]
  table p := by simp [initPipe, Pc.holdsTable]

end Locked

/-! ## What a step leaves alone -/

/-- The fields of the pipe that `p->lock` protects. -/
structure SamePipe (s t : PipeState α) : Prop where
  data : t.data = s.data
  nread : t.nread = s.nread
  nwrite : t.nwrite = s.nwrite
  readopen : t.readopen = s.readopen
  writeopen : t.writeopen = s.writeopen
  stored : t.stored = s.stored
  handed : t.handed = s.handed

section Frame

variable {s t : PipeState α} {p q : Nat} (moves : s.next p = some t) {action : PipeAction α}

include moves

/-- A step moves one process. -/
theorem next_pc : ∃ new, t.pc = update s.pc p new := by
  unfold PipeState.next at moves
  cases here : s.pc p <;> simp only [here] at moves
  case outside => contradiction
  case writeLoop n rest stored =>
    cases moves
    cases rest with
    | nil => exact ⟨_, rfl⟩
    | cons byte rest =>
      unfold writeStep
      split_ifs <;> exact ⟨_, rfl⟩
  case readTest n =>
    cases moves
    unfold PipeState.readTest
    split_ifs <;> exact ⟨_, rfl⟩
  case readLoop n i =>
    cases moves
    unfold readStep
    split_ifs <;> exact ⟨_, rfl⟩
  case closeSet writable =>
    cases moves
    cases writable <;> exact ⟨_, rfl⟩
  case writeEnter | readEnter | closeEnter | wakeLock | sleepLock | parked | killLock =>
    obtain ⟨_, ⟨⟩⟩ := ite_none_right_eq_some.mp moves
    exact ⟨_, rfl⟩
  all_goals
    cases moves
    exact ⟨_, rfl⟩

/-- A step leaves the other processes where they are. -/
theorem next_pc_other (other : q ≠ p) : t.pc q = s.pc q := by
  obtain ⟨new, pc⟩ := next_pc moves
  rw [pc, update_of_ne other]

/-- What a step does to the pipe: nothing, or it stores a byte, hands one out or closes an end,
each with the lock held. -/
inductive PipeMove (s : PipeState α) (p : Nat) (t : PipeState α) : Prop where
  | same (same : SamePipe s t)
  | store (n : Nat) (byte : α) (rest : List α) (stored : Bool)
      (here : s.pc p = .writeLoop n (byte :: rest) stored) (room : ¬s.Full)
      (after : t = { s.goto p (.writeLoop n rest true) with
        data := update s.data (s.nwrite % pipeSize) byte
        nwrite := uint (s.nwrite + 1)
        stored := s.stored ++ [byte] })
  | take (n i : Nat) (here : s.pc p = .readLoop n i) (more : ¬s.Empty)
      (after : t = { s.goto p (.readLoop n (i + 1)) with
        nread := uint (s.nread + 1)
        handed := s.handed ++ [s.data (s.nread % pipeSize)] })
  | close (writable : Bool) (here : s.pc p = .closeSet writable) (after : t = s.closeSet p writable)

/-- Every step of a call does one of these to the pipe. -/
theorem next_pipe : PipeMove s p t := by
  unfold PipeState.next at moves
  cases here : s.pc p <;> simp only [here] at moves
  case outside => contradiction
  case writeLoop n rest stored =>
    cases moves
    cases rest with
    | nil => exact .same (by constructor <;> rfl)
    | cons byte rest =>
      by_cases full : s.Full
      · simp only [writeStep, full, if_true]
        exact .same (by split <;> constructor <;> rfl)
      · exact .store n byte rest stored here full (by simp [writeStep, full])
  case readTest n =>
    cases moves
    unfold PipeState.readTest
    exact .same (by split_ifs <;> constructor <;> rfl)
  case readLoop n i =>
    cases moves
    by_cases done : n ≤ i ∨ s.Empty
    · simp only [readStep, done, if_true]
      exact .same (by constructor <;> rfl)
    · exact .take n i here (fun empty => done (.inr empty)) (by simp [readStep, done])
  case closeSet writable =>
    cases moves
    exact .close writable here rfl
  case writeEnter | readEnter | closeEnter | wakeLock | sleepLock | parked | killLock =>
    obtain ⟨_, ⟨⟩⟩ := ite_none_right_eq_some.mp moves
    exact .same (by constructor <;> rfl)
  all_goals
    cases moves
    exact .same (by constructor <;> rfl)

/-- Without the lock a process leaves the pipe alone. -/
theorem next_same (outside : (s.pc p).holdsLock = false) : SamePipe s t := by
  cases next_pipe moves with
  | same same => exact same
  | store n byte rest stored here => simp [here, Pc.holdsLock] at outside
  | take n i here => simp [here, Pc.holdsLock] at outside
  | close writable here => simp [here, Pc.holdsLock] at outside

/-- The counters at which a call begins. -/
def Pc.Begins : Pc α → Prop
  | outside | writeEnter .. | readEnter _ | closeEnter _ | killLock _ => True
  | _ => False

/-- A process begins a call, or passes a descriptor on: only counters and descriptors change. -/
structure Begins (s : PipeState α) (p : Nat) (t : PipeState α) : Prop where
  here : s.pc p = .outside
  pipe : SamePipe s t
  locks : t.lock = s.lock ∧ t.table = s.table
  freed : t.freed = s.freed
  state : t.state = s.state
  chan : t.chan = s.chan
  ends : ∀ writable, t.pc p = .closeEnter writable → p ∈ s.holders writable
  pc : ∃ new : Pc α, t.pc = update s.pc p new ∧ new.Begins

omit moves in
/-- A step continues a call or begins one. -/
theorem pipeStep_cases (moves : pipeStep s (p, action) = some t) :
    action = .next ∧ s.next p = some t ∨ action ≠ .next ∧ Begins s p t := by
  unfold pipeStep at moves
  simp only at moves
  split at moves
  · exact .inl ⟨rfl, moves⟩
  · rename_i here
    obtain ⟨_, ⟨⟩⟩ := ite_none_right_eq_some.mp moves
    exact .inr ⟨by simp, here, by constructor <;> rfl, ⟨rfl, rfl⟩, rfl, rfl, rfl,
      by simp [goto], _, rfl, trivial⟩
  · rename_i here
    obtain ⟨_, ⟨⟩⟩ := ite_none_right_eq_some.mp moves
    exact .inr ⟨by simp, here, by constructor <;> rfl, ⟨rfl, rfl⟩, rfl, rfl, rfl,
      by simp [goto], _, rfl, trivial⟩
  · rename_i here
    obtain ⟨holds, ⟨⟩⟩ := ite_none_right_eq_some.mp moves
    unfold PipeState.close
    simp only
    split
    · exact .inr ⟨by simp, here, by constructor <;> rfl, ⟨rfl, rfl⟩, rfl, rfl, rfl,
        by simpa [goto] using holds, _, rfl, trivial⟩
    · exact .inr ⟨by simp, here, by constructor <;> rfl, ⟨rfl, rfl⟩, rfl, rfl, rfl,
        by simp [here], .outside, by rw [← here, update_eq_self], trivial⟩
  · rename_i here
    obtain ⟨_, ⟨⟩⟩ := ite_none_right_eq_some.mp moves
    exact .inr ⟨by simp, here, by constructor <;> rfl, ⟨rfl, rfl⟩, rfl, rfl, rfl,
      by simp [here], .outside, by rw [← here, update_eq_self], trivial⟩
  · rename_i here
    cases moves
    exact .inr ⟨by simp, here, by constructor <;> rfl, ⟨rfl, rfl⟩, rfl, rfl, rfl,
      by simp [goto], _, rfl, trivial⟩
  · contradiction

omit moves in
/-- Every step keeps the locks in order. -/
theorem Locked.step (h : Locked s) (moves : pipeStep s (p, action) = some t) : Locked t := by
  obtain ⟨_, moves⟩ | ⟨_, begins⟩ := pipeStep_cases moves
  · exact h.next moves
  · obtain ⟨new, pc, start⟩ := begins.pc
    refine h.keep begins.here pc begins.locks ?_ ?_ <;> cases new <;> first | rfl | cases start

end Frame

/-! ## What a process with the lock knows -/

/-- When it is right to sleep on a channel. -/
def PipeState.Waits (s : PipeState α) : Chan → Prop
  | .nread => s.Empty ∧ s.writeopen = true
  | .nwrite => s.Full ∧ s.readopen = true

/-- A `piperead` for some bytes returns 0 only if it has found the pipe empty and closed. -/
def PipeState.Drained (s : PipeState α) (n i : Nat) : Prop :=
  0 < n → i = 0 → s.Empty ∧ s.writeopen = false

/-- What a process that calls `wakeup` has found out. -/
def Then.Knows (s : PipeState α) : Then α → Prop
  | sleep .. => s.Waits .nwrite
  | read n i => s.Drained n i
  | _ => True

/-- What a process that holds the lock has found out. -/
def Pc.Knows (s : PipeState α) : Pc α → Prop
  | readLoop _ i => i = 0 → ¬s.Waits .nread
  | wakeLock next | wake next | wakeUnlock next => next.Knows s
  | sleepLock call | sleepUnlock call => s.Waits call.chan
  | ret (.read n i) => s.Drained n i
  | _ => True

section Knows

variable {s t : PipeState α} {p q : Nat}

/-- When to sleep depends on the pipe alone. -/
theorem SamePipe.waits (same : SamePipe s t) (chan : Chan) : t.Waits chan ↔ s.Waits chan := by
  cases chan <;>
    simp [PipeState.Waits, PipeState.Empty, PipeState.Full, same.nread, same.nwrite,
      same.readopen, same.writeopen]

/-- What a reader that got nothing has seen depends on the pipe alone. -/
theorem SamePipe.drained (same : SamePipe s t) (n i : Nat) : t.Drained n i ↔ s.Drained n i := by
  simp [PipeState.Drained, PipeState.Empty, same.nread, same.nwrite, same.writeopen]

/-- What a process has found out stays true while the pipe stays as it is. -/
theorem SamePipe.knows (same : SamePipe s t) (pc : Pc α) (knows : pc.Knows s) : pc.Knows t := by
  unfold Pc.Knows Then.Knows at *
  grind [same.waits, same.drained]

/-- What is known without the lock is nothing. -/
theorem knows_of_unlocked {pc : Pc α} (outside : pc.holdsLock = false) : pc.Knows s := by
  cases pc <;> simp_all [Pc.holdsLock, Pc.Knows]

/-- What a process finds out by its own step. -/
theorem knows_own (moves : s.next p = some t) (knows : (s.pc p).Knows s) : (t.pc p).Knows t := by
  unfold PipeState.next at moves
  cases here : s.pc p <;> simp only [here] at moves knows
  case outside => contradiction
  case writeLoop n rest stored =>
    cases moves
    cases rest with
    | nil => simp [writeStep, goto, Pc.Knows, Then.Knows]
    | cons byte rest =>
      unfold writeStep
      split_ifs with full gone
      · simp [goto, Pc.Knows]
      · rw [not_or, Bool.not_eq_false] at gone
        simp only [goto, update_self]
        exact ⟨full, gone.1⟩
      · simp [goto, Pc.Knows]
  case readTest n =>
    cases moves
    unfold PipeState.readTest
    split_ifs with waits killed
    · simp [goto, Pc.Knows]
    · simp only [goto, update_self]
      exact waits
    · simp only [goto, update_self]
      exact fun _ => waits
  case readLoop n i =>
    cases moves
    unfold readStep
    split_ifs with done
    · simp only [goto, update_self]
      -- The first loop has ended because of a byte, or because the write end is closed.
      intro positive none
      have empty : s.Empty := by
        rcases done with done | empty
        · omega
        · exact empty
      have shut := knows none
      simp only [PipeState.Waits, not_and, Bool.not_eq_true] at shut
      exact ⟨empty, shut empty⟩
    · simp [goto, Pc.Knows]
  case closeSet writable =>
    cases moves
    cases writable <;> simp [PipeState.closeSet, goto, Pc.Knows, Then.Knows]
  case writeEnter | readEnter | closeEnter | killLock =>
    obtain ⟨_, ⟨⟩⟩ := ite_none_right_eq_some.mp moves
    simp [goto, Pc.Knows]
  case wakeLock next =>
    obtain ⟨_, ⟨⟩⟩ := ite_none_right_eq_some.mp moves
    simp only [goto, update_self]
    cases next <;> exact knows
  case wakeUnlock next =>
    cases moves
    simp only [goto, update_self]
    cases next <;> exact knows
  case wake next =>
    cases moves
    simp only [goto, wakeup1, update_self]
    cases next <;> exact knows
  case sleepLock call =>
    obtain ⟨_, ⟨⟩⟩ := ite_none_right_eq_some.mp moves
    simp only [goto, update_self]
    cases call <;> exact knows
  case parked call =>
    obtain ⟨_, ⟨⟩⟩ := ite_none_right_eq_some.mp moves
    simp [goto, Pc.Knows]
  case tableUnlock call =>
    cases moves
    cases call <;> simp [goto, Sleeper.again, Pc.Knows]
  all_goals
    cases moves
    simp [goto, finish, PipeState.kill, Pc.Knows]

/-- Every process that holds the lock knows what it has found out. -/
def Knowing (s : PipeState α) : Prop := ∀ p, (s.pc p).Knows s

/-- A step of a call keeps what the others have found out. -/
theorem Knowing.next (h : Knowing s) (locked : Locked s) (moves : s.next p = some t) :
    Knowing t := by
  intro q
  by_cases same : q = p
  · exact same ▸ knows_own moves (h p)
  · rw [next_pc_other moves same]
    -- Either `q` holds the lock, and then `p` does not, or it knows nothing.
    cases held : (s.pc q).holdsLock with
    | false => exact knows_of_unlocked held
    | true =>
      have outside : (s.pc p).holdsLock = false := by
        by_contra inside
        exact same (locked.lock.exclusive held (by simpa using inside))
      exact (next_same moves outside).knows _ (h q)

/-- Every step keeps what the processes have found out. -/
theorem Knowing.step (h : Knowing s) (locked : Locked s) {action : PipeAction α}
    (moves : pipeStep s (p, action) = some t) : Knowing t := by
  obtain ⟨_, moves⟩ | ⟨_, begins⟩ := pipeStep_cases moves
  · exact h.next locked moves
  · intro q
    obtain ⟨new, pc, start⟩ := begins.pc
    rw [pc]
    by_cases same : q = p
    · rw [same, update_self]
      exact knows_of_unlocked (by cases new <;> simp_all [Pc.Begins, Pc.holdsLock])
    · rw [update_of_ne same]
      exact begins.pipe.knows _ (h q)

/-- Nobody has found out anything about a new pipe. -/
theorem Knowing.init (data : Nat → α) (creator : Nat) : Knowing (initPipe data creator) :=
  fun _ => trivial

end Knows

end Xv6.Pipe
