import Xv6.Proc.Family

/-!
# A user program in the process table

One process of the table runs a given program; the other processes do anything. A `Program` says
which system calls the process makes and what it does between them; the kernel is that of
`Xv6.Proc.Table`. `Change` lists what a step of the kernel can do to one entry, and from it
follows what happens to the children of the process: only its own steps give it children or free
them.
-/

namespace Xv6.Proc

/-- A user program with the places `π`, whose steps outside the kernel are the events `ε`. -/
structure Program (π ε : Type) where
  /-- The place behind a step of the process in the kernel, from the states before and behind it;
  `none` if the program does not make that call there. -/
  call : π → State → State → Action → Option π
  /-- The place behind a step outside the kernel. -/
  user : π → ε → Option π
  /-- Whether the process has left the program. -/
  gone : π → Bool

/-- What happens next on a CPU. -/
inductive UserEvent (ε : Type) where
  | kernel (action : Action)
  | user (event : ε)
  deriving DecidableEq

/-- CPU `c` runs process `p` outside the kernel. -/
def State.InUser (s : State) (c : Nat) (p : Slot) : Prop :=
  (s.cpu c).proc = some p ∧ (s.cpu c).mode = .process p ∧ (s.proc p).parked = none ∧
    (s.proc p).point = .outside

/-- An action is no `wakeup`. -/
def Action.own : Action → Bool
  | wakeup _ => false
  | _ => true

theorem Action.own_iff (action : Action) : action.own = true ↔ ∀ n, action ≠ .wakeup n := by
  cases action <;> simp [own]

instance (s : State) (c : Nat) (p : Slot) (action : Action) : Decidable (s.Acts c p action) :=
  decidable_of_iff ((s.cpu c).proc = some p ∧ (s.cpu c).mode = .process p ∧ action.own = true)
    (by rw [Action.own_iff]; exact Iff.rfl)

instance (s : State) (c : Nat) (p : Slot) : Decidable (s.InUser c p) :=
  inferInstanceAs (Decidable (_ ∧ _ ∧ _ ∧ _))

section Step

variable {π ε : Type} (program : Program π ε) (self : Slot)

/-- One step of the machine while process `self` runs the program. -/
def Program.step (s : State × π) (event : Nat × UserEvent ε) : Option (State × π) :=
  match event.2 with
  | .user happens =>
    if s.1.InUser event.1 self then (program.user s.2 happens).map fun place => (s.1, place)
    else none
  | .kernel action =>
    match procStep s.1 (event.1, action) with
    | none => none
    | some later =>
      if s.1.Acts event.1 self action ∧ program.gone s.2 = false then
        (program.call s.2 s.1 later action).map fun place => (later, place)
      else some (later, s.2)

/-- The kinds of steps: of the program outside the kernel, of its process in the kernel, and of
everything else. -/
theorem Program.step_cases {s t : State × π} {event : Nat × UserEvent ε}
    (moves : program.step self s event = some t) :
    (∃ happens, event.2 = .user happens ∧ program.user s.2 happens = some t.2 ∧ t.1 = s.1) ∨
    ∃ action, event.2 = .kernel action ∧ Moves s.1 event.1 action t.1 ∧
      (s.1.Acts event.1 self action ∧ program.gone s.2 = false ∧
          program.call s.2 s.1 t.1 action = some t.2 ∨
        (¬s.1.Acts event.1 self action ∨ program.gone s.2 = true) ∧ t.2 = s.2) := by
  grind [Program.step, Option.map_eq_some_iff, procStep_moves]

end Step

/-! ## What a step does to an entry -/

/-- What a step of CPU `c` does to the entry of `q`. -/
inductive Change (s t : State) (c : Nat) (action : Action) (q : Slot) : Prop where
  | kept (parent : (t.proc q).parent = (s.proc q).parent)
      (serial : (t.proc q).serial = (s.proc q).serial)
      (state : Stays (s.proc q).state (t.proc q).state)
  /-- `allocproc` takes the slot. -/
  | allocated (p : Slot) (acts : s.Acts c p action) (unused : (s.proc q).state = .unused)
      (parent : (t.proc q).parent = none) (serial : (t.proc q).serial = s.forks + 1)
      (state : (t.proc q).state = .embryo)
  /-- `fork` fails behind `allocproc`. -/
  | dropped (p : Slot) (acts : s.Acts c p action) (before : (s.proc q).parent = none)
      (parent : (t.proc q).parent = none) (serial : (t.proc q).serial = (s.proc q).serial)
      (state : (t.proc q).state = .unused)
  /-- `np->parent = curproc`. -/
  | born (p : Slot) (acts : s.Acts c p action) (calls : action = .copyuvm true)
      (before : (s.proc q).parent = none) (parent : (t.proc q).parent = some p)
      (serial : (t.proc q).serial = (s.proc q).serial)
      (embryo : (s.proc q).state = .embryo) (state : (t.proc q).state = .embryo)
  /-- `np->state = RUNNABLE`. -/
  | published (p : Slot) (acts : s.Acts c p action) (point : (s.proc p).point = .publish q)
      (parent : (t.proc q).parent = (s.proc q).parent)
      (serial : (t.proc q).serial = (s.proc q).serial)
      (embryo : (s.proc q).state = .embryo) (state : (t.proc q).state = .runnable)
  /-- The process exits. -/
  | exited (acts : s.Acts c q action) (exits : action = .exit) (alive : (s.proc q).state.Alive)
      (parent : (t.proc q).parent = (s.proc q).parent)
      (serial : (t.proc q).serial = (s.proc q).serial) (state : (t.proc q).state = .zombie)
  /-- Its parent exits. -/
  | adopted (p : Slot) (acts : s.Acts c p action) (exits : action = .exit)
      (before : (s.proc q).parent = some p) (parent : (t.proc q).parent = some initproc)
      (serial : (t.proc q).serial = (s.proc q).serial)
      (state : Stays (s.proc q).state (t.proc q).state)
  /-- Its parent's `wait` frees it. -/
  | freed (p : Slot) (acts : s.Acts c p action) (waits : action = .wait ∨ action = .resume)
      (before : (s.proc q).parent = some p) (zombie : (s.proc q).state = .zombie)
      (parent : (t.proc q).parent = none) (serial : (t.proc q).serial = (s.proc q).serial)
      (state : (t.proc q).state = .unused)

/-- What a step of the kernel can do to an entry. -/
theorem Moves.change {s t : State} {c : Nat} {action : Action} (moves : Moves s c action t)
    (placed : Placed s) (forking : Forking s) (family : Family s) (q : Slot) :
    Change s t c action q := by
  cases moves.effect placed forking with
  | tame counts each => exact .kept (each q).parent (each q).serial (each q).state
  | fork p np point e acts running other forks after =>
    have entry := after q
    by_cases own : q = p
    · rw [if_pos own, ← own] at entry
      exact .kept (by rw [entry]) (by rw [entry]) (.inl (by rw [entry]))
    rw [if_neg own] at entry
    by_cases here : q = np
    · subst here
      rw [if_pos rfl] at entry
      have embryo := forking.embryo p q
      cases forks with
      | taken stands unused =>
        exact .allocated p acts unused (by rw [entry, family.unused q unused]) (by rw [entry])
          (by rw [entry])
      | stack stands => exact .kept (by rw [entry]) (by rw [entry]) (.inl (by rw [entry]))
      | space stands =>
        have embryo := embryo (by rw [stands]; rfl)
        exact .born p acts rfl (family.unborn p q (.inr stands)) (by rw [entry]) (by rw [entry])
          embryo (by rw [entry, embryo])
      | published stands =>
        exact .published p acts stands (by rw [entry]) (by rw [entry])
          (embryo (by rw [stands]; rfl)) (by rw [entry])
      | dropped ok fails stands =>
        have orphan := family.unborn p q stands
        exact .dropped p acts orphan (by rw [entry, orphan]) (by rw [entry]) (by rw [entry])
    · rw [if_neg here] at entry
      exact .kept (by rw [entry]) (by rw [entry]) (.inl (by rw [entry]))
  | exit k p acts exits running point other moves =>
    obtain ⟨state, woken, after⟩ := afterExit_eq s p q
    have entry := exit_proc s c k p q
    rw [← moves] at entry
    by_cases here : q = p
    · subst here
      rw [if_pos rfl, after] at entry
      have notOwn := family.parent q q
      refine .exited acts exits (by simp [ProcState.Alive, running]) ?_ (by rw [entry])
        (by rw [entry])
      rw [entry]
      grind
    · rw [if_neg here, after] at entry
      have stays : Stays (s.proc q).state state := by
        grind [Stays, ProcState.Alive]
      by_cases child : (s.proc q).parent = some p
      · refine .adopted p acts exits child ?_ (by rw [entry]) (by rw [entry]; exact stays)
        rw [entry]
        exact if_pos child
      · refine .kept ?_ (by rw [entry]) (by rw [entry]; exact stays)
        rw [entry]
        exact if_neg child
  | freed p z acts waits turn child zombie gone each =>
    by_cases here : q = z
    · subst here
      exact .freed p acts waits child zombie (by rw [gone]) (by rw [gone]) (by rw [gone])
    · obtain ⟨tame, _⟩ := each q here
      exact .kept tame.parent tame.serial tame.state

/-! ## Children of the process -/

/-- The process with a number has exited. -/
def State.Exited (s : State) (n : Nat) : Prop :=
  ∀ q, (s.proc q).serial = n → (s.proc q).state = .unused ∨ (s.proc q).state = .zombie

instance (s : State) (n : Nat) : Decidable (s.Exited n) :=
  inferInstanceAs (Decidable (∀ q : Slot, (s.proc q).serial = n →
    (s.proc q).state = .unused ∨ (s.proc q).state = .zombie))

/-- What holds of the kernel in every state. -/
structure Kernel (s : State) : Prop where
  placed : Placed s
  forking : Forking s
  family : Family s
  numbered : Numbered s

namespace Kernel

variable {s t : State} {c : Nat} {action : Action} {p q self : Slot} {n : Nat} (h : Kernel s)

include h

theorem step (moves : Moves s c action t) : Kernel t :=
  ⟨h.placed.step h.forking moves, h.forking.step h.placed moves,
    h.family.step h.placed h.forking moves, h.numbered.step h.placed h.forking moves⟩

omit h in
theorem of_reach {allowed : State → Nat × Action → Prop}
    (reached : Lib.Reach procStep allowed boot s) : Kernel s := by
  refine reached.invariant Kernel ⟨placed_boot, forking_boot, family_boot, numbered_boot⟩ ?_
  rintro s ⟨c, action⟩ later kernel _ moves
  exact kernel.step (procStep_moves moves)

section

variable (moves : Moves s c action t)

include moves

theorem change (q : Slot) : Change s t c action q :=
  moves.change h.placed h.forking h.family q

/-- A living process was there before, unless it has been allocated now. -/
theorem living (old : (t.proc q).serial ≤ s.forks) (used : (t.proc q).state ≠ .unused)
    (lives : (t.proc q).state ≠ .zombie) :
    (s.proc q).serial = (t.proc q).serial ∧ (s.proc q).state ≠ .unused ∧
      (s.proc q).state ≠ .zombie := by
  cases h.change moves q with
  | kept parent serial state | adopted p acts exits was parent serial state =>
    grind [Stays, ProcState.Alive]
  | allocated p acts unused parent serial state => omega
  | dropped p acts was parent serial state => exact absurd state used
  | born p acts calls was parent serial embryo state => grind
  | published p acts point parent serial embryo state => grind
  | exited acts exits alive parent serial state => exact absurd state lives
  | freed p acts waits was zombie parent serial state => exact absurd state used

/-- Who has exited does not come back. -/
theorem exited (exited : s.Exited n) (old : n ≤ s.forks) : t.Exited n := by
  intro q number
  by_contra alive
  rw [not_or] at alive
  obtain ⟨serial, used, lives⟩ := h.living moves (number ▸ old) alive.1 alive.2
  rcases exited q (serial.trans number) with unused | zombie
  · exact used unused
  · exact lives zombie

/-- A child keeps its parent until it is freed or the parent exits. -/
theorem keeps (stays : s.Acts c self action → action ≠ .exit)
    (child : (s.proc q).parent = some self) (used : (t.proc q).state ≠ .unused) :
    (t.proc q).parent = some self := by
  have orphan := h.family.unused q
  cases h.change moves q with
  | kept parent serial state | published p acts point parent serial embryo state
  | exited acts exits alive parent serial state => rw [parent, child]
  | allocated p acts unused parent serial state => simp [orphan unused] at child
  | dropped p acts was parent serial state => exact absurd state used
  | born p acts calls was parent serial embryo state => simp [was] at child
  | adopted p acts exits was parent serial state =>
    obtain rfl : p = self := Option.some.inj (was.symm.trans child)
    exact absurd exits (stays acts)
  | freed p acts waits was zombie parent serial state => exact absurd state used

/-- The number of processes ever made does not go back. -/
theorem forks : s.forks ≤ t.forks := by
  cases moves.effect h.placed h.forking with
  | tame counts | freed _ _ _ _ _ _ _ _ _ _ counts => exact (congrArg (·.2.1) counts).ge
  | fork p np point e acts running other forks after counts =>
    split_ifs at counts with first
    · exact (congrArg (·.2.1) counts).ge.trans' (Nat.le_succ _)
    · exact (congrArg (·.2.1) counts).ge
  | exit k p acts exits running point other moves =>
    rw [moves, exit_eq]
    exact le_rfl

/-- Only `copyuvm` of its own `fork` gives the process a child. -/
theorem child (notInit : self ≠ initproc) (child : (t.proc q).parent = some self) :
    (s.proc q).parent = some self ∨ s.Acts c self action ∧ action = .copyuvm true := by
  cases h.change moves q with
  | kept parent serial state | published p acts point parent serial embryo state
  | exited acts exits alive parent serial state => exact .inl (parent ▸ child)
  | allocated p acts unused parent serial state => simp [parent] at child
  | dropped p acts was parent serial state => simp [parent] at child
  | born p acts calls was parent serial embryo state =>
    obtain rfl : p = self := Option.some.inj (parent.symm.trans child)
    exact .inr ⟨acts, calls⟩
  | adopted p acts exits was parent serial state =>
    exact absurd (Option.some.inj (parent.symm.trans child)) notInit.symm
  | freed p acts waits was zombie parent serial state => simp [parent] at child

end

omit h in
/-- That `copyuvm` gives it one child. -/
theorem sole_child (moves : Moves s c (.copyuvm true) t) (acts : s.Acts c self (.copyuvm true)) :
    ∃ np, ∀ q, (t.proc q).parent = some self → (s.proc q).parent = some self ∨ q = np := by
  cases moves with
  | copyuvm k p np ok runs point =>
    obtain rfl : p = self := Option.some.inj (runs.proc.symm.trans acts.1)
    refine ⟨np, fun q child => ?_⟩
    simp only [State.copyuvm, if_true, State.modify_proc] at child
    grind

end Kernel

/-- An iteration of `wait` that returns to a process that is not killed has found an exited child,
or no child at all. -/
theorem waitScan_returns {u : State} {c : Nat} {k p : Slot}
    (returns : ((u.waitScan c k p).proc p).parked ≠ some .wait)
    (lives : ((u.waitScan c k p).proc p).killed = false) :
    (∃ z, (u.proc z).parent = some p ∧ (u.proc z).state = .zombie) ∨
      ∀ q, (u.proc q).parent ≠ some p := by
  unfold State.waitScan at returns lives
  split at returns
  · rename_i z found
    have zombie := State.first_some found
    simp only [decide_eq_true_eq] at zombie
    exact .inl ⟨z, zombie⟩
  · rename_i found
    simp only [found] at lives
    split_ifs at returns lives with ends
    · rcases ends with childless | killed
      · refine .inr fun q child => ?_
        have none := State.first_none childless q
        simp [child] at none
      · simp [killed] at lives
    · simp [State.sleepOn_proc] at returns

/-- So has the `wait` of a program. -/
theorem Moves.waited {s t : State} {c : Nat} {action : Action} {self : Slot}
    (moves : Moves s c action t) (acts : s.Acts c self action)
    (scans : action = .wait ∨ action = .resume ∧ (s.proc self).parked = some .wait)
    (returns : (t.proc self).parked ≠ some .wait) (lives : (t.proc self).killed = false) :
    (∃ z, (s.proc z).parent = some self ∧ (s.proc z).state = .zombie) ∨
      ∀ q, (s.proc q).parent ≠ some self := by
  obtain ⟨proc, mode, _⟩ := acts
  rcases scans with rfl | ⟨rfl, asleep⟩
  · cases moves with
    | wait k p runs free point =>
      obtain rfl : p = self := Option.some.inj (runs.proc.symm.trans proc)
      have found := waitScan_returns returns lives
      exact found
  · cases moves with
    | resume k p place later mode' here parked resumes =>
      obtain rfl : p = self := Option.some.inj (here.symm.trans proc)
      obtain rfl : place = .wait := Option.some.inj (parked.symm.trans asleep)
      cases resumes
      have entry : ∀ q, ((s.modify p ({ · with parked := none, chan := none })).proc q).parent =
          (s.proc q).parent ∧
          ((s.modify p ({ · with parked := none, chan := none })).proc q).state =
          (s.proc q).state := by
        intro q
        rw [State.modify_proc]
        grind
      grind [waitScan_returns]

/-! ## Pieces of runs -/

/-- Init makes a process on CPU 0 and waits; the process runs. -/
def bootChild : List (Nat × Action) :=
  [(0, .acquire), (0, .look), (0, .switch), (0, .resume), (0, .fork), (0, .kalloc true),
    (0, .copyuvm true), (0, .publish), (0, .wait), (0, .clear), (0, .look), (0, .switch),
    (0, .resume)]

/-- The process on CPU 0 calls `fork`. -/
def callFork {ε : Type} : List (Nat × UserEvent ε) :=
  [.fork, .kalloc true, .copyuvm true, .publish].map fun action => (0, .kernel action)

/-- CPU 1 takes the lock, passes the entries before `slot`, runs the process there, which exits at
once, and goes through the rest of the table. -/
def runAndExit {ε : Type} (slot : Nat) : List (Nat × UserEvent ε) :=
  let actions : List Action := .acquire :: List.replicate (slot + 1) .look ++
    [.switch, .resume, .exit, .clear] ++ List.replicate (nProc - slot) .look
  actions.map fun action => (1, .kernel action)

end Xv6.Proc
