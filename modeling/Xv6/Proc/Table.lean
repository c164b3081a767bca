import Mathlib.Data.List.FinRange
import Xv6.Lib.Run
import Xv6.Param

/-!
# The process table

`proc.c` for any number of CPUs: `scheduler`, `sched`, `fork` with `allocproc`, `exit`, `wait`,
`kill`, `yield`, `sleep` and `wakeup`, and the fatal trap of `trap.c`.

What runs between an `acquire` of `ptable.lock` and the next `release` or `swtch` is one step;
the scheduler is cut finer, since it holds the lock across `swtch`. `fork` writes its child's
entry without the lock, so each of those writes is a step of its own, and a timer interrupt may
call `yield` between any two of them.

The state also records what the code does not: how many processes `fork` has allocated and the
number of each of them (`serial`), whether a `kill` or a fatal trap was aimed at a process since
it was allocated (`targeted`), and what `wait` returned (`reaped`).
-/

namespace Xv6.Proc

open Function

/-- Index of a process in `ptable.proc`. -/
abbrev Slot := Fin nProc

/-- `initproc`: `userinit` takes the first slot. -/
def initproc : Slot := ⟨0, by decide⟩

/-- `enum procstate`. -/
inductive ProcState where
  | unused
  | embryo
  | sleeping
  | runnable
  | running
  | zombie
  deriving DecidableEq

/-- A channel of `sleep`: the address of a process, or of something else. -/
inductive Chan where
  | proc (p : Slot)
  | other (n : Nat)
  deriving DecidableEq

/-- Where a process stands in `fork`. -/
inductive Point where
  /-- In user space, or in a system call other than `fork`. -/
  | outside
  /-- In `allocproc`, about to allocate the kernel stack of `np`. -/
  | stack (np : Slot)
  /-- About to call `copyuvm` for `np`. -/
  | space (np : Slot)
  /-- About to make `np` runnable. -/
  | publish (np : Slot)
  deriving DecidableEq

/-- The child of a `fork` in progress. -/
def Point.child : Point → Option Slot
  | outside => none
  | stack np => some np
  | space np => some np
  | publish np => some np

/-- Where a process continues when `swtch` returns to it. -/
inductive Switch where
  /-- In `forkret`. -/
  | forkret
  /-- In `yield`. -/
  | yield
  /-- In `sleep`, called with a lock other than `ptable.lock`. -/
  | sleep
  /-- In `sleep`, called by `wait`. -/
  | wait
  /-- In `exit`, at the panic behind `sched`. -/
  | exit
  deriving DecidableEq

/-- `struct proc`, with the position of its kernel thread. -/
structure Entry where
  /-- `p->state`. -/
  state : ProcState
  /-- `p->pid`. -/
  pid : Int
  /-- `p->parent`. -/
  parent : Option Slot
  /-- `p->chan`. -/
  chan : Option Chan
  /-- `p->killed`. -/
  killed : Bool
  /-- How far a `fork` of this process is. -/
  point : Point
  /-- The `swtch` this process has not returned from. -/
  parked : Option Switch
  /-- Number of the process in the slot, counted over all processes ever allocated. -/
  serial : Nat
  /-- A `kill` of its pid or a fatal trap has happened since it was allocated. -/
  targeted : Bool
  deriving DecidableEq

/-- Position of a CPU in `scheduler`. -/
inductive Mode where
  /-- Between `release` and `acquire`. -/
  | idle
  /-- Holding `ptable.lock`, about to look at entry `k`. -/
  | scan (k : Nat)
  /-- After `c->proc = p`. -/
  | chosen (k : Slot)
  /-- After `swtch`: running a process. -/
  | process (k : Slot)
  /-- Back from `swtch`, before `c->proc = 0`. -/
  | back (k : Slot)
  deriving DecidableEq

/-- `struct cpu`, with its position in `scheduler`. -/
structure Cpu where
  /-- `c->proc`. -/
  proc : Option Slot
  mode : Mode
  deriving DecidableEq

/-- A child that `wait` returned. -/
structure Reaped where
  /-- The process that called `wait`. -/
  waiter : Slot
  /-- The slot of the child. -/
  child : Slot
  /-- The value returned. -/
  pid : Int
  /-- The number of the child. -/
  serial : Nat
  deriving DecidableEq

/-- The process table and the CPUs. -/
structure State where
  /-- The CPU that holds `ptable.lock`. -/
  lock : Option Nat
  cpu : Nat → Cpu
  /-- `ptable.proc`. -/
  proc : Slot → Entry
  /-- `nextpid`. -/
  nextpid : Int
  /-- Processes that `fork` has allocated. -/
  forks : Nat
  /-- What `wait` has returned, newest first. -/
  reaped : List Reaped

/-- `n++` on an `int`. -/
def incr (n : Int) : Int := (n + 1).bmod (2 ^ 32)

/-- The effect of `wakeup1(chan)` on one entry. -/
def Entry.wake (chan : Option Chan) (e : Entry) : Entry :=
  if e.state = .sleeping ∧ e.chan = chan then { e with state := .runnable } else e

namespace State

/-- `acquire(&ptable.lock)`. -/
def acquire (s : State) (c : Nat) : State := { s with lock := some c }

/-- `release(&ptable.lock)`. -/
def release (s : State) : State := { s with lock := none }

/-- Change one entry. -/
def modify (s : State) (p : Slot) (f : Entry → Entry) : State :=
  { s with proc := update s.proc p (f (s.proc p)) }

/-- Change one CPU. -/
def setCpu (s : State) (c : Nat) (cpu : Cpu) : State :=
  { s with cpu := update s.cpu c cpu }

/-- The first entry in table order that passes a test. -/
def first (s : State) (test : Entry → Bool) : Option Slot :=
  (List.finRange nProc).find? fun q => test (s.proc q)

/-! ## `scheduler` -/

/-- `c->proc = p` for a runnable entry; the loop's end releases the lock. -/
def look (s : State) (c k : Nat) : State :=
  if bound : k < nProc then
    if (s.proc ⟨k, bound⟩).state = .runnable then
      s.setCpu c { proc := some ⟨k, bound⟩, mode := .chosen ⟨k, bound⟩ }
    else s.setCpu c { s.cpu c with mode := .scan (k + 1) }
  else (s.setCpu c { s.cpu c with mode := .idle }).release

/-- `p->state = RUNNING` and `swtch` to the process. -/
def switch (s : State) (c : Nat) (k : Slot) : State :=
  (s.modify k ({ · with state := .running })).setCpu c { s.cpu c with mode := .process k }

/-- `c->proc = 0` and on to the next entry. -/
def clear (s : State) (c : Nat) (k : Slot) : State :=
  s.setCpu c { proc := none, mode := .scan (k.val + 1) }

/-- `sched` at the given place: the CPU goes back to the loop of `scheduler`, whose variable `p`
still is `k`. -/
def sched (s : State) (c : Nat) (k p : Slot) (place : Switch) : State :=
  (s.modify p ({ · with parked := some place })).setCpu c { s.cpu c with mode := .back k }

/-! ## `sleep` and `wakeup` -/

/-- `wakeup1`. -/
def wakeup1 (s : State) (chan : Option Chan) : State :=
  { s with proc := fun q => (s.proc q).wake chan }

/-- `p->chan = chan; p->state = SLEEPING; sched()`. -/
def sleepOn (s : State) (c : Nat) (k p : Slot) (chan : Chan) (place : Switch) : State :=
  (s.modify p fun e => { e with chan := some chan, state := .sleeping }).sched c k p place

/-- `yield`, up to the `swtch`. -/
def yield (s : State) (c : Nat) (k p : Slot) : State :=
  ((s.acquire c).modify p ({ · with state := .runnable })).sched c k p .yield

/-- `sleep` with a lock other than `ptable.lock`, up to the `swtch`. -/
def sleep (s : State) (c : Nat) (k p : Slot) (n : Nat) : State :=
  (s.acquire c).sleepOn c k p (.other n) .sleep

/-- `wakeup`. -/
def wakeup (s : State) (c : Nat) (n : Nat) : State :=
  ((s.acquire c).wakeup1 (some (.other n))).release

/-! ## `fork` -/

/-- The locked part of `allocproc`, called by `fork` in process `p`. -/
def allocproc (s : State) (p : Slot) : Option (Slot × State) :=
  match s.first fun e => e.state = .unused with
  | none => none
  | some np => some (np,
    { (s.modify np fun e => { e with
        state := .embryo, pid := s.nextpid, serial := s.forks + 1, targeted := false }).modify p
        ({ · with point := .stack np }) with
      nextpid := incr s.nextpid
      forks := s.forks + 1 })

/-- `fork`, up to the release of the lock in `allocproc`. -/
def fork (s : State) (c : Nat) (p : Slot) : State :=
  match (s.acquire c).allocproc p with
  | none => (s.acquire c).release
  | some (_, s) => s.release

/-- `p->state = UNUSED`, without the lock, and `fork` returns -1. -/
def giveUp (s : State) (p np : Slot) : State :=
  (s.modify np ({ · with state := .unused })).modify p ({ · with point := .outside })

/-- The rest of `allocproc`: the kernel stack, with `forkret` as the place to continue. -/
def kalloc (s : State) (p np : Slot) (ok : Bool) : State :=
  if ok then (s.modify np ({ · with parked := some .forkret })).modify p
    ({ · with point := .space np })
  else s.giveUp p np

/-- `copyuvm`, then `np->parent = curproc`. -/
def copyuvm (s : State) (p np : Slot) (ok : Bool) : State :=
  if ok then (s.modify np ({ · with parent := some p })).modify p ({ · with point := .publish np })
  else s.giveUp p np

/-- The end of `fork`: the child becomes runnable. -/
def publish (s : State) (c : Nat) (p np : Slot) : State :=
  (((s.acquire c).modify np ({ · with state := .runnable })).modify p
    ({ · with point := .outside })).release

/-! ## `exit`, `wait` and `kill` -/

/-- One iteration of the loop of `exit` that passes abandoned children to init. -/
def adopt (p : Slot) (s : State) (q : Slot) : State :=
  if (s.proc q).parent = some p then
    let s := s.modify q ({ · with parent := some initproc })
    if (s.proc q).state = .zombie then s.wakeup1 (some (.proc initproc)) else s
  else s

/-- `exit` from the `acquire` on, up to the `swtch`. -/
def exit (s : State) (c : Nat) (k p : Slot) : State :=
  let s := s.acquire c
  let s := s.wakeup1 ((s.proc p).parent.map .proc)
  let s := (List.finRange nProc).foldl (adopt p) s
  (s.modify p ({ · with state := .zombie })).sched c k p .exit

/-- `wait` frees a child: its stack and its page table go, and its slot is unused again. -/
def free (s : State) (p z : Slot) : State :=
  { (s.modify z fun e => { e with pid := 0, parent := none, killed := false, state := .unused })
    with reaped := ⟨p, z, (s.proc z).pid, (s.proc z).serial⟩ :: s.reaped }

/-- One iteration of the outer loop of `wait`, with the lock held. -/
def waitScan (s : State) (c : Nat) (k p : Slot) : State :=
  match s.first fun e => e.parent = some p ∧ e.state = .zombie with
  | some z => (s.free p z).release
  | none =>
    if (s.first fun e => e.parent = some p) = none ∨ (s.proc p).killed then s.release
    else s.sleepOn c k p (.proc p) .wait

/-- A `kill` aimed at a pid. -/
def aim (s : State) (pid : Int) : State :=
  { s with proc := fun q => if (s.proc q).state ≠ .unused ∧ (s.proc q).pid = pid then
      { s.proc q with targeted := true } else s.proc q }

/-- `kill`, with its result. -/
def kill (s : State) (c : Nat) (pid : Int) : Int × State :=
  let s := s.acquire c
  match s.first fun e => e.pid = pid with
  | some q => (0, ((s.aim pid).modify q fun e => { e with
      killed := true, state := if e.state = .sleeping then .runnable else e.state }).release)
  | none => (-1, s.release)

/-- `myproc()->killed = 1` in `trap`. -/
def trap (s : State) (p : Slot) : State :=
  s.modify p ({ · with killed := true, targeted := true })

/-- A process continues behind the `swtch` at which it was parked, with the lock held. -/
def resume (s : State) (c : Nat) (k p : Slot) : Switch → Option State
  | .forkret => some (s.modify p ({ · with parked := none })).release
  | .yield => some (s.modify p ({ · with parked := none })).release
  | .sleep => some (s.modify p ({ · with parked := none, chan := none })).release
  | .wait => some ((s.modify p ({ · with parked := none, chan := none })).waitScan c k p)
  | .exit => none

end State

/-- What a CPU does next. -/
inductive Action where
  /-- `scheduler` takes the lock. -/
  | acquire
  /-- `scheduler` looks at an entry. -/
  | look
  /-- `scheduler` switches to the chosen process. -/
  | switch
  /-- `scheduler` clears `c->proc`. -/
  | clear
  /-- The process returns from `swtch`. -/
  | resume
  | fork
  /-- The allocation of the kernel stack succeeds or fails. -/
  | kalloc (ok : Bool)
  /-- The copy of the address space succeeds or fails. -/
  | copyuvm (ok : Bool)
  | publish
  | exit
  | wait
  | kill (pid : Int)
  | yield
  | sleep (n : Nat)
  /-- From a process or from an interrupt handler. -/
  | wakeup (n : Nat)
  /-- A fatal trap in user space. -/
  | trap
  deriving DecidableEq

/-- What process `p`, running on CPU `c`, does outside `swtch`. -/
def State.act (s : State) (c : Nat) (k p : Slot) : Action → Option State
  | .fork => if s.lock = none ∧ (s.proc p).point = .outside then some (s.fork c p) else none
  | .kalloc ok => match (s.proc p).point with
    | .stack np => some (s.kalloc p np ok)
    | _ => none
  | .copyuvm ok => match (s.proc p).point with
    | .space np => some (s.copyuvm p np ok)
    | _ => none
  | .publish => match s.lock, (s.proc p).point with
    | none, .publish np => some (s.publish c p np)
    | _, _ => none
  -- `exit` of init panics before it takes the lock.
  | .exit => if s.lock = none ∧ (s.proc p).point = .outside ∧ p ≠ initproc then
      some (s.exit c k p) else none
  | .wait => if s.lock = none ∧ (s.proc p).point = .outside then
      some ((s.acquire c).waitScan c k p) else none
  | .kill pid => if s.lock = none ∧ (s.proc p).point = .outside then some (s.kill c pid).2 else none
  | .yield => if s.lock = none then some (s.yield c k p) else none
  | .sleep n => if s.lock = none ∧ (s.proc p).point = .outside then
      some (s.sleep c k p n) else none
  | .trap => if (s.proc p).point = .outside then some (s.trap p) else none
  | _ => none

/-- What a CPU that runs process `p` does. -/
def State.run (s : State) (c : Nat) (k p : Slot) (action : Action) : Option State :=
  match (s.proc p).parked with
  | none => s.act c k p action
  | some place => if action = .resume then s.resume c k p place else none

/-- One step of one CPU. -/
def State.step (s : State) (c : Nat) (action : Action) : Option State :=
  match action, (s.cpu c).mode with
  | .acquire, .idle => if s.lock = none then
      some ((s.acquire c).setCpu c { s.cpu c with mode := .scan 0 }) else none
  | .look, .scan k => some (s.look c k)
  | .switch, .chosen k => some (s.switch c k)
  | .clear, .back k => some (s.clear c k)
  | .wakeup n, _ => if s.lock = none then some (s.wakeup c n) else none
  | action, .process k => (s.cpu c).proc.bind fun p => s.run c k p action
  | _, _ => none

/-- One step of the machine: which CPU, and what it does. -/
def procStep (s : State) (event : Nat × Action) : Option State := s.step event.1 event.2

/-- A slot that no process has used. -/
def Entry.unused : Entry where
  state := .unused
  pid := 0
  parent := none
  chan := none
  killed := false
  point := .outside
  parked := none
  serial := 0
  targeted := false

/-- After `userinit`: init has pid 1 and can run, every CPU is about to enter `scheduler`. -/
def boot : State where
  lock := none
  cpu := fun _ => ⟨none, .idle⟩
  proc := fun q => if q = initproc then
    { Entry.unused with state := .runnable, pid := 1, parked := some .forkret } else Entry.unused
  nextpid := 2
  forks := 0
  reaped := []

/-! ## What a step did -/

/-- CPU `c` runs process `p` outside `swtch`; `k` is the variable of its scheduler. -/
structure State.Runs (s : State) (c : Nat) (k p : Slot) : Prop where
  mode : (s.cpu c).mode = .process k
  proc : (s.cpu c).proc = some p
  parked : (s.proc p).parked = none

/-- The transitions of the source, each from the states that enable it. -/
inductive Moves (s : State) (c : Nat) : Action → State → Prop where
  | acquire (mode : (s.cpu c).mode = .idle) (free : s.lock = none) :
      Moves s c .acquire ((s.acquire c).setCpu c { s.cpu c with mode := .scan 0 })
  | look (k : Nat) (mode : (s.cpu c).mode = .scan k) : Moves s c .look (s.look c k)
  | switch (k : Slot) (mode : (s.cpu c).mode = .chosen k) : Moves s c .switch (s.switch c k)
  | clear (k : Slot) (mode : (s.cpu c).mode = .back k) : Moves s c .clear (s.clear c k)
  | wakeup (n : Nat) (free : s.lock = none) : Moves s c (.wakeup n) (s.wakeup c n)
  | resume (k p : Slot) (place : Switch) (later : State) (mode : (s.cpu c).mode = .process k)
      (proc : (s.cpu c).proc = some p) (parked : (s.proc p).parked = some place)
      (resumes : s.resume c k p place = some later) : Moves s c .resume later
  | fork (k p : Slot) (runs : s.Runs c k p) (free : s.lock = none)
      (point : (s.proc p).point = .outside) : Moves s c .fork (s.fork c p)
  | kalloc (k p np : Slot) (ok : Bool) (runs : s.Runs c k p)
      (point : (s.proc p).point = .stack np) : Moves s c (.kalloc ok) (s.kalloc p np ok)
  | copyuvm (k p np : Slot) (ok : Bool) (runs : s.Runs c k p)
      (point : (s.proc p).point = .space np) : Moves s c (.copyuvm ok) (s.copyuvm p np ok)
  | publish (k p np : Slot) (runs : s.Runs c k p) (free : s.lock = none)
      (point : (s.proc p).point = .publish np) : Moves s c .publish (s.publish c p np)
  | exit (k p : Slot) (runs : s.Runs c k p) (free : s.lock = none)
      (point : (s.proc p).point = .outside) (other : p ≠ initproc) :
      Moves s c .exit (s.exit c k p)
  | wait (k p : Slot) (runs : s.Runs c k p) (free : s.lock = none)
      (point : (s.proc p).point = .outside) : Moves s c .wait ((s.acquire c).waitScan c k p)
  | kill (k p : Slot) (pid : Int) (runs : s.Runs c k p) (free : s.lock = none)
      (point : (s.proc p).point = .outside) : Moves s c (.kill pid) (s.kill c pid).2
  | yield (k p : Slot) (runs : s.Runs c k p) (free : s.lock = none) :
      Moves s c .yield (s.yield c k p)
  | sleep (k p : Slot) (n : Nat) (runs : s.Runs c k p) (free : s.lock = none)
      (point : (s.proc p).point = .outside) : Moves s c (.sleep n) (s.sleep c k p n)
  | trap (k p : Slot) (runs : s.Runs c k p) (point : (s.proc p).point = .outside) :
      Moves s c .trap (s.trap p)

variable {p k np : Slot} {later s : State} {c : Nat} {action : Action}

/-- What a process does outside `swtch` is one of the transitions. -/
theorem act_moves (runs : s.Runs c k p) (acts : s.act c k p action = some later) :
    Moves s c action later := by
  cases action <;> simp only [State.act, Option.ite_none_right_eq_some, Option.some.injEq,
    reduceCtorEq] at acts
  case fork =>
    obtain ⟨⟨free, point⟩, rfl⟩ := acts
    exact .fork k p runs free point
  case kalloc ok =>
    split at acts
    · rename_i np point
      cases acts
      exact .kalloc k p np ok runs point
    · contradiction
  case copyuvm ok =>
    split at acts
    · rename_i np point
      cases acts
      exact .copyuvm k p np ok runs point
    · contradiction
  case publish =>
    split at acts
    · rename_i np free point
      cases acts
      exact .publish k p np runs free point
    · contradiction
  case exit =>
    obtain ⟨⟨free, point, other⟩, rfl⟩ := acts
    exact .exit k p runs free point other
  case wait =>
    obtain ⟨⟨free, point⟩, rfl⟩ := acts
    exact .wait k p runs free point
  case kill pid =>
    obtain ⟨⟨free, point⟩, rfl⟩ := acts
    exact .kill k p pid runs free point
  case yield =>
    obtain ⟨free, rfl⟩ := acts
    exact .yield k p runs free
  case sleep n =>
    obtain ⟨⟨free, point⟩, rfl⟩ := acts
    exact .sleep k p n runs free point
  case trap =>
    obtain ⟨point, rfl⟩ := acts
    exact .trap k p runs point

/-- A step of the machine is one of the transitions. -/
theorem procStep_moves (moves : procStep s (c, action) = some later) : Moves s c action later := by
  change s.step c action = some later at moves
  unfold State.step at moves
  split at moves
  · rename_i mode
    obtain ⟨free, ⟨⟩⟩ := Option.ite_none_right_eq_some.mp moves
    exact .acquire mode free
  · rename_i k mode
    cases moves
    exact .look k mode
  · rename_i k mode
    cases moves
    exact .switch k mode
  · rename_i k mode
    cases moves
    exact .clear k mode
  · rename_i n
    obtain ⟨free, ⟨⟩⟩ := Option.ite_none_right_eq_some.mp moves
    exact .wakeup n free
  · rename_i k _ mode
    obtain ⟨p, proc, moves⟩ := Option.bind_eq_some_iff.mp moves
    unfold State.run at moves
    split at moves
    · rename_i parked
      exact act_moves ⟨mode, proc, parked⟩ moves
    · rename_i place parked
      obtain ⟨rfl, resumes⟩ := Option.ite_none_right_eq_some.mp moves
      exact .resume k p place later mode proc parked resumes
  · contradiction

/-! ## Entries after a change -/

namespace State

variable (s : State) (c : Nat) (p q : Slot) (f : Entry → Entry) (cpu : Cpu) {test : Entry → Bool}

/-- `acquire` changes no entry. -/
@[simp] theorem acquire_proc : (s.acquire c).proc = s.proc := rfl
/-- `acquire` changes no CPU. -/
@[simp] theorem acquire_cpu : (s.acquire c).cpu = s.cpu := rfl
/-- `acquire` takes the lock. -/
@[simp] theorem acquire_lock : (s.acquire c).lock = some c := rfl
/-- `release` changes no entry. -/
@[simp] theorem release_proc : s.release.proc = s.proc := rfl
/-- `release` changes no CPU. -/
@[simp] theorem release_cpu : s.release.cpu = s.cpu := rfl
/-- `release` gives the lock back. -/
@[simp] theorem release_lock : s.release.lock = none := rfl
/-- A change of an entry changes no CPU. -/
@[simp] theorem modify_cpu : (s.modify p f).cpu = s.cpu := rfl
/-- A change of an entry leaves the lock alone. -/
@[simp] theorem modify_lock : (s.modify p f).lock = s.lock := rfl
/-- A change of a CPU changes no entry. -/
@[simp] theorem setCpu_proc : (s.setCpu c cpu).proc = s.proc := rfl
/-- A change of a CPU leaves the lock alone. -/
@[simp] theorem setCpu_lock : (s.setCpu c cpu).lock = s.lock := rfl

/-- `wakeup1` wakes each entry. -/
theorem wakeup1_proc (chan : Option Chan) : (s.wakeup1 chan).proc q = (s.proc q).wake chan := rfl

/-- A change of one entry. -/
theorem modify_proc : (s.modify p f).proc q = if q = p then f (s.proc p) else s.proc q := by
  simp [modify, update_apply]

/-- The entry that was changed. -/
@[simp] theorem modify_self : (s.modify p f).proc p = f (s.proc p) := by simp [modify_proc]

/-- A change of one CPU. -/
theorem setCpu_cpu (d : Nat) : (s.setCpu c cpu).cpu d = if d = c then cpu else s.cpu d := by
  simp [setCpu, update_apply]

/-- `scheduler` runs one entry. -/
theorem switch_proc (k : Slot) : (s.switch c k).proc q =
    if q = k then { s.proc k with state := .running } else s.proc q := by
  simp [switch, modify_proc]

/-- A process goes to sleep. -/
theorem sleepOn_proc (k : Slot) (chan : Chan) (place : Switch) :
    (s.sleepOn c k p chan place).proc q =
      if q = p then { s.proc p with chan := some chan, state := .sleeping, parked := some place }
      else s.proc q := by
  simp only [sleepOn, sched, setCpu_proc, modify_proc]
  split <;> rfl

/-- `yield` changes the caller only. -/
theorem yield_proc (k : Slot) : (s.yield c k p).proc q =
    if q = p then { s.proc p with state := .runnable, parked := some .yield } else s.proc q := by
  simp only [yield, sched, setCpu_proc, modify_proc, acquire_proc]
  split <;> rfl

/-- `sleep` changes the caller only. -/
theorem sleep_proc (k : Slot) (n : Nat) : (s.sleep c k p n).proc q =
    if q = p then
      { s.proc p with chan := some (.other n), state := .sleeping, parked := some .sleep }
    else s.proc q := sleepOn_proc ..

/-- `wakeup` wakes each entry. -/
theorem wakeup_proc (n : Nat) : (s.wakeup c n).proc q = (s.proc q).wake (some (.other n)) := rfl

/-- `fork` fails and leaves an unused slot. -/
theorem giveUp_proc (other : np ≠ p) :
    (s.giveUp p np).proc q =
    if q = p then { s.proc p with point := .outside }
    else if q = np then { s.proc np with state := .unused } else s.proc q := by
  simp [giveUp, modify_proc, other.symm]

/-- `fork` ends with a runnable child. -/
theorem publish_proc (other : np ≠ p) :
    (s.publish c p np).proc q =
    if q = p then { s.proc p with point := .outside }
    else if q = np then { s.proc np with state := .runnable } else s.proc q := by
  simp [publish, modify_proc, other.symm]

/-- `wait` empties a slot. -/
theorem free_proc (z : Slot) : (s.free p z).proc q =
    if q = z then { s.proc z with pid := 0, parent := none, killed := false, state := .unused }
    else s.proc q := by
  simp [free, modify, update_apply]

/-- `trap` marks the process that runs. -/
theorem trap_proc : (s.trap p).proc q =
    if q = p then { s.proc p with killed := true, targeted := true } else s.proc q :=
  s.modify_proc ..

variable {s}

/-- What `first` finds passes the test. -/
theorem first_some {q : Slot} (found : s.first test = some q) : test (s.proc q) := by
  have holds := List.find?_some found
  exact holds

/-- If `first` finds nothing, no entry passes the test. -/
theorem first_none (found : s.first test = none) (q : Slot) : test (s.proc q) = false := by
  simpa using List.find?_eq_none.mp found q (List.mem_finRange q)

end State

namespace Entry

variable (e : Entry) (chan : Option Chan)

/-- The effect of an `exit` of `p` on the parent of one entry. -/
def passOn (p : Slot) (e : Entry) : Entry :=
  if e.parent = some p then { e with parent := some initproc } else e

/-- `wakeup1` changes the state at most. -/
theorem wake_eq : ∃ state, (state = e.state ∨ e.state = .sleeping ∧ state = .runnable) ∧
    e.wake chan = { e with state := state } := by
  unfold wake
  split
  · rename_i asleep
    exact ⟨.runnable, .inr ⟨asleep.1, rfl⟩, rfl⟩
  · exact ⟨e.state, .inl rfl, rfl⟩

/-- Passing on changes the parent at most. -/
theorem passOn_eq (p : Slot) : e.passOn p =
    { e with parent := if e.parent = some p then some initproc else e.parent } := by
  unfold passOn
  split <;> rfl

/-- Waking twice is waking once. -/
theorem wake_wake : (e.wake chan).wake chan = e.wake chan := by
  unfold wake
  split <;> simp_all

/-- Waking and passing on commute. -/
theorem wake_passOn (p : Slot) : (e.passOn p).wake chan = (e.wake chan).passOn p := by
  unfold wake passOn
  split_ifs <;> simp_all

/-- `wakeup1` leaves the parent alone. -/
@[simp] theorem wake_parent : (e.wake chan).parent = e.parent := by unfold wake; split <;> rfl

/-- `wakeup1` makes no zombie and wakes none. -/
@[simp] theorem wake_zombie : (e.wake chan).state = .zombie ↔ e.state = .zombie := by
  unfold wake
  split <;> simp_all

end Entry

/-- Whether an abandoned child in a list of slots has exited. -/
def State.HasZombie (s : State) (p : Slot) (slots : List Slot) : Prop :=
  ∃ z ∈ slots, (s.proc z).parent = some p ∧ (s.proc z).state = .zombie

instance (s : State) (p : Slot) (slots : List Slot) : Decidable (s.HasZombie p slots) :=
  inferInstanceAs (Decidable (∃ z ∈ slots, _))

/-- One iteration passes a child on, and wakes init for a zombie. -/
theorem adopt_proc (s : State) (p q a : Slot) :
    (State.adopt p s a).proc q =
      let e := if q = a then (s.proc q).passOn p else s.proc q
      if (s.proc a).parent = some p ∧ (s.proc a).state = .zombie then
        e.wake (some (.proc initproc)) else e := by
  grind [State.adopt, State.wakeup1, State.modify_proc, Entry.passOn]

/-- What the loop of `exit` does to an entry: a child gets init as its parent, and init is woken
if one of the children has exited. -/
theorem adopt_fold {slots : List Slot} (distinct : slots.Nodup) (s : State) (q : Slot) :
    (slots.foldl (State.adopt p) s).proc q =
      let e := if q ∈ slots then (s.proc q).passOn p else s.proc q
      if s.HasZombie p slots then e.wake (some (.proc initproc)) else e := by
  induction slots generalizing s with
  | nil => simp [State.HasZombie]
  | cons a rest ih =>
    obtain ⟨notIn, distinct⟩ := List.nodup_cons.mp distinct
    have later : (State.adopt p s a).HasZombie p rest ↔ s.HasZombie p rest := by
      have same : ∀ z ∈ rest, ((State.adopt p s a).proc z).parent = (s.proc z).parent ∧
          (((State.adopt p s a).proc z).state = .zombie ↔ (s.proc z).state = .zombie) := by
        intro z inRest
        have other : z ≠ a := fun h => notIn (h ▸ inRest)
        rw [adopt_proc]
        simp only [other, if_false]
        split <;> simp
      constructor
      · rintro ⟨z, inRest, parent, zombie⟩
        exact ⟨z, inRest, (same z inRest).1 ▸ parent, (same z inRest).2.mp zombie⟩
      · rintro ⟨z, inRest, parent, zombie⟩
        exact ⟨z, inRest, (same z inRest).1.trans parent, (same z inRest).2.mpr zombie⟩
    have now : s.HasZombie p (a :: rest) ↔
        ((s.proc a).parent = some p ∧ (s.proc a).state = .zombie) ∨ s.HasZombie p rest := by
      simp [State.HasZombie]
    rw [List.foldl_cons, ih distinct]
    grind [adopt_proc, Entry.wake_wake, Entry.wake_passOn]

/-- The loop of `exit` changes entries only. -/
theorem adopt_frame (p : Slot) (slots : List Slot) (s : State) :
    slots.foldl (State.adopt p) s =
      { s with proc := (slots.foldl (State.adopt p) s).proc } := by
  induction slots generalizing s with
  | nil => rfl
  | cons a rest ih =>
    have frame : State.adopt p s a = { s with proc := (State.adopt p s a).proc } := by
      unfold State.adopt
      simp only
      split_ifs <;> rfl
    rw [List.foldl_cons, ih, frame]

/-- What an `exit` of `p` does to another entry. -/
def State.afterExit (s : State) (p q : Slot) : Entry :=
  let e := ((s.proc q).wake ((s.proc p).parent.map .proc)).passOn p
  if s.HasZombie p (List.finRange nProc) then e.wake (some (.proc initproc)) else e

/-- `exit` changes nothing of another entry but its parent, and wakes it at most. -/
theorem afterExit_eq (s : State) (p q : Slot) :
    ∃ state, (state = (s.proc q).state ∨ (s.proc q).state = .sleeping ∧ state = .runnable) ∧
      s.afterExit p q = { s.proc q with
        state := state
        parent := if (s.proc q).parent = some p then some initproc else (s.proc q).parent } := by
  obtain ⟨once, change, first⟩ := (s.proc q).wake_eq ((s.proc p).parent.map .proc)
  unfold State.afterExit
  simp only [first, Entry.passOn_eq]
  split
  · obtain ⟨twice, again, second⟩ := Entry.wake_eq
      { s.proc q with
        state := once
        parent := if (s.proc q).parent = some p then some initproc else (s.proc q).parent }
      (some (.proc initproc))
    refine ⟨twice, ?_, second⟩
    grind
  · exact ⟨once, change, rfl⟩

/-- Who is still asleep slept on neither of the channels that `exit` wakes. -/
theorem afterExit_asleep {q : Slot} (asleep : (s.afterExit p q).state = .sleeping) :
    (s.proc q).chan ≠ (s.proc p).parent.map .proc ∧
      (s.HasZombie p (List.finRange nProc) → (s.proc q).chan ≠ some (.proc initproc)) := by
  grind [Entry.wake, State.afterExit, Entry.passOn_eq]

/-- `exit` in terms of what it does to the other entries. -/
theorem exit_eq (s : State) (c : Nat) (k p : Slot) :
    s.exit c k p =
      (({ s with lock := some c, proc := s.afterExit p }).modify p
        ({ · with state := .zombie })).sched c k p .exit := by
  have entries : ((List.finRange nProc).foldl (State.adopt p)
      ((s.acquire c).wakeup1 ((s.proc p).parent.map .proc))).proc = s.afterExit p := by
    funext q
    have zombie : ((s.acquire c).wakeup1 ((s.proc p).parent.map .proc)).HasZombie p
        (List.finRange nProc) ↔ s.HasZombie p (List.finRange nProc) := by
      simp [State.HasZombie, State.wakeup1]
    rw [adopt_fold (List.nodup_finRange _)]
    simp [State.afterExit, zombie, State.wakeup1_proc]
  unfold State.exit
  simp only [State.acquire_proc]
  rw [adopt_frame, entries]
  rfl

/-- What `exit` does to every entry. -/
theorem exit_proc (s : State) (c : Nat) (k p q : Slot) :
    (s.exit c k p).proc q =
      if q = p then { s.afterExit p p with state := .zombie, parked := some .exit }
      else s.afterExit p q := by
  rw [exit_eq]
  by_cases same : q = p <;> simp [State.sched, State.modify_proc, same]

/-- The three ends of an iteration of `wait`. -/
theorem waitScan_cases (s : State) (c : Nat) (k p : Slot) :
    (∃ z, (s.proc z).parent = some p ∧ (s.proc z).state = .zombie ∧
      s.waitScan c k p = (s.free p z).release) ∨
    ((∀ q, (s.proc q).parent = some p → (s.proc q).state ≠ .zombie) ∧
      (s.waitScan c k p = s.release ∨ s.waitScan c k p = s.sleepOn c k p (.proc p) .wait)) := by
  grind [State.waitScan, State.first_some, State.first_none]

/-- `fork` finds no slot, or takes an unused one. -/
theorem fork_cases (s : State) (c : Nat) (p : Slot) :
    s.fork c p = (s.acquire c).release ∨
    ∃ np, (s.proc np).state = .unused ∧ s.fork c p =
      { (s.modify np fun e => { e with
          state := .embryo, pid := s.nextpid, serial := s.forks + 1, targeted := false }).modify p
          ({ · with point := .stack np }) with
        lock := none, nextpid := incr s.nextpid, forks := s.forks + 1 } := by
  unfold State.fork State.allocproc
  cases found : (s.acquire c).first fun e => e.state = .unused with
  | none => exact .inl rfl
  | some np =>
    have unused := State.first_some found
    simp only [decide_eq_true_eq] at unused
    exact .inr ⟨np, unused, rfl⟩

/-- `kill` marks the first entry with the pid, if there is one. -/
theorem kill_cases (s : State) (c : Nat) (pid : Int) :
    (∃ q, (s.proc q).pid = pid ∧ s.kill c pid =
      (0, (((s.acquire c).aim pid).modify q fun e => { e with
        killed := true, state := if e.state = .sleeping then .runnable else e.state }).release)) ∨
    (∀ q, (s.proc q).pid ≠ pid) ∧ s.kill c pid = (-1, (s.acquire c).release) := by
  unfold State.kill
  simp only
  cases found : (s.acquire c).first fun e => e.pid = pid with
  | none =>
    have none := State.first_none found
    simp only [decide_eq_false_iff_not] at none
    exact .inr ⟨none, rfl⟩
  | some q =>
    have same := State.first_some found
    simp only [decide_eq_true_eq] at same
    exact .inl ⟨q, same, rfl⟩

/-- Behind `swtch` a process gives the lock back or, in `wait`, looks for its children again. -/
theorem resume_cases {place : Switch} (resumes : s.resume c k p place = some later) :
    ∃ chan, later = (s.modify p ({ · with parked := none, chan := chan })).release ∨
      later = (s.modify p ({ · with parked := none, chan := chan })).waitScan c k p := by
  cases place with
  | forkret =>
    cases resumes
    exact ⟨(s.proc p).chan, .inl rfl⟩
  | yield =>
    cases resumes
    exact ⟨(s.proc p).chan, .inl rfl⟩
  | sleep =>
    cases resumes
    exact ⟨none, .inl rfl⟩
  | wait =>
    cases resumes
    exact ⟨none, .inr rfl⟩
  | exit => contradiction

/-- What `wait` returns is an exited child of the process that called it. -/
structure Reaps (s t : State) (c : Nat) (r : Reaped) : Prop where
  proc : (s.cpu c).proc = some r.waiter
  parent : (s.proc r.child).parent = some r.waiter
  zombie : (s.proc r.child).state = .zombie
  pid : r.pid = (s.proc r.child).pid
  serial : r.serial = (s.proc r.child).serial
  unused : (t.proc r.child).state = .unused
  reaped : t.reaped = r :: s.reaped

end Xv6.Proc
