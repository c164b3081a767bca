import Xv6.Proc.Table

/-!
# One CPU per process

`ptable.lock` is taken by one thread and released by another across `swtch`. The invariant says
for each position of a CPU in `scheduler` what its `c->proc` is, whether it holds the lock and
in which state its process is; the lock's holder is the only CPU for which the process is not
running.
-/

namespace Xv6.Proc

open State

/-- What the position of CPU `c` in `scheduler` says. -/
def State.Seated (s : State) (c : Nat) : Prop :=
  match (s.cpu c).mode with
  | .idle => (s.cpu c).proc = none ∧ s.lock ≠ some c
  | .scan _ => (s.cpu c).proc = none ∧ s.lock = some c
  | .chosen k => (s.cpu c).proc = some k ∧ s.lock = some c ∧ (s.proc k).state = .runnable
  | .process k => (s.cpu c).proc = some k ∧ (s.proc k).state = .running ∧
      ((s.proc k).parked ≠ none → s.lock = some c)
  | .back k => (s.cpu c).proc = some k ∧ s.lock = some c ∧
      (s.proc k).state ∈ [ProcState.sleeping, .runnable, .zombie]

/-- Processes and CPUs agree. -/
structure Placed (s : State) : Prop where
  seat : ∀ c, s.Seated c
  /-- No process is on two CPUs. -/
  alone : ∀ c d p, (s.cpu c).proc = some p → (s.cpu d).proc = some p → c = d
  /-- A running process is on a CPU. -/
  running : ∀ p, (s.proc p).state = .running → ∃ c, (s.cpu c).mode = .process p
  /-- A process that waits for a CPU is inside `swtch`. -/
  parked : ∀ p, (s.proc p).state = .runnable ∨ (s.proc p).state = .sleeping →
    (s.proc p).parked ≠ none

/-- The children that are being made by `fork`. -/
structure Forking (s : State) : Prop where
  embryo : ∀ p np, (s.proc p).point.child = some np → (s.proc np).state = .embryo
  /-- Behind `allocproc` a child has a context to continue in. -/
  fresh : ∀ p np, (s.proc p).point = .space np ∨ (s.proc p).point = .publish np →
    (s.proc np).parked ≠ none
  sole : ∀ p q np, (s.proc p).point.child = some np → (s.proc q).point.child = some np → p = q

/-- Changes of an entry that concern no CPU. -/
def State.Quiet (s : State) (q : Slot) (e : Entry) : Prop :=
  (e.state = (s.proc q).state ∧ e.parked = (s.proc q).parked) ∨
  (e.state = .running ∧ (s.proc q).state = .running ∧ e.parked = none) ∨
  ((s.proc q).state = .sleeping ∧ e.state = .runnable ∧ e.parked = (s.proc q).parked) ∨
  ((∀ c, (s.cpu c).proc ≠ some q) ∧ (s.proc q).state ≠ .running ∧ e.state ≠ .running ∧
    (e.state = .runnable ∨ e.state = .sleeping → e.parked ≠ none))

namespace Placed

variable {s t : State} {c : Nat} {k p q : Slot} (h : Placed s) {place : Switch}

include h

theorem process (mode : (s.cpu c).mode = .process k) :
    (s.cpu c).proc = some k ∧ (s.proc k).state = .running ∧
      ((s.proc k).parked ≠ none → s.lock = some c) := by
  have seat := h.seat c
  rwa [State.Seated, mode] at seat

/-- A process that is `c->proc` is in one of four states, and runs unless the CPU has the
lock. -/
theorem seated (proc : (s.cpu c).proc = some p) :
    ((s.cpu c).mode = .process p ∧ (s.proc p).state = .running) ∨
      (s.lock = some c ∧ (s.proc p).state ∈ [ProcState.sleeping, .runnable, .zombie] ∧
        ∀ k, (s.cpu c).mode ≠ .process k) := by
  have seat := h.seat c
  unfold State.Seated at seat
  split at seat <;> simp_all

/-- Entries change, CPUs do not. -/
theorem entries (lock : t.lock = s.lock) (cpu : t.cpu = s.cpu) (quiet : ∀ q, s.Quiet q (t.proc q)) :
    Placed t where
  seat c := by
    have seat := h.seat c
    unfold State.Seated at seat ⊢
    rw [lock, cpu]
    grind [State.Quiet]
  alone := by rw [cpu]; exact h.alone
  running p running := by
    have := quiet p
    have := h.running p
    rw [cpu]
    grind [State.Quiet]
  parked p waits := by
    have := quiet p
    have := h.parked p
    grind [State.Quiet]

/-- A running process takes the lock. -/
theorem acquire (free : s.lock = none) (mode : (s.cpu c).mode = .process k) :
    Placed (s.acquire c) where
  seat d := by
    have seat := h.seat d
    unfold State.Seated at seat ⊢
    simp only [acquire_cpu, acquire_lock, acquire_proc]
    grind
  alone := h.alone
  running := h.running
  parked := h.parked

/-- A running process outside `swtch` gives the lock back. -/
theorem release (lock : s.lock = some c) (mode : (s.cpu c).mode = .process k)
    (parked : (s.proc k).parked = none) : Placed s.release where
  seat d := by
    have seat := h.seat d
    unfold State.Seated at seat ⊢
    simp only [release_cpu, release_lock, release_proc]
    grind
  alone := h.alone
  running := h.running
  parked := h.parked

/-- A process that holds the lock has changed its state and calls `sched`. -/
theorem sched (lock : s.lock = some c) (mode : (s.cpu c).mode = .process k)
    (proc : (s.cpu c).proc = some p) {f : Entry → Entry}
    (state : (f (s.proc p)).state ∈ [ProcState.sleeping, .runnable, .zombie]) :
    Placed ((s.modify p f).sched c k p place) where
  seat d := by
    have same : p = k := by
      have := (h.process mode).1
      grind
    subst same
    have seat := h.seat d
    have alone := h.alone c d p proc
    unfold State.Seated at seat ⊢
    simp only [State.sched, setCpu_cpu, modify_cpu, setCpu_lock,
      modify_lock, setCpu_proc, modify_proc]
    grind
  alone a b q hereA hereB := by
    simp only [State.sched, setCpu_cpu, modify_cpu] at hereA hereB
    have := h.alone a b q
    grind
  running q running := by
    obtain ⟨d, other⟩ := h.running q (by
      simp only [State.sched, setCpu_proc, modify_proc] at running
      grind)
    refine ⟨d, ?_⟩
    simp only [State.sched, setCpu_proc, modify_proc, setCpu_cpu,
      modify_cpu] at running ⊢
    have := (h.process mode).1
    grind
  parked q waits := by
    simp only [State.sched, setCpu_proc, modify_proc] at waits ⊢
    have := h.parked q
    grind

/-! ### The scheduler -/

/-- A CPU in the scheduler moves on, with the lock free or its own before and after. -/
theorem turn {new : Cpu} (proc : t.proc = s.proc)
    (cpu : ∀ d, t.cpu d = if d = c then new else s.cpu d)
    (before : s.lock = none ∨ s.lock = some c) (after : t.lock = none ∨ t.lock = some c)
    (left : ∀ k, (s.cpu c).mode ≠ .process k) (own : t.Seated c)
    (unseated : ∀ p, new.proc = some p → ∀ d, d ≠ c → (s.cpu d).proc ≠ some p) : Placed t where
  seat d := by
    by_cases here : d = c
    · exact here ▸ own
    · have seat := h.seat d
      unfold State.Seated at seat ⊢
      rw [cpu, if_neg here, proc]
      grind
  alone a b q hereA hereB := by
    have := h.alone a b q
    rw [cpu] at hereA hereB
    grind
  running q running := by
    obtain ⟨d, other⟩ := h.running q (proc ▸ running)
    refine ⟨d, ?_⟩
    rw [cpu]
    grind
  parked := proc ▸ h.parked

theorem enter (free : s.lock = none) (mode : (s.cpu c).mode = .idle) :
    Placed ((s.acquire c).setCpu c { s.cpu c with mode := .scan 0 }) := by
  have own := h.seat c
  rw [State.Seated, mode] at own
  refine h.turn rfl (setCpu_cpu _ c _) (.inl free) (.inr rfl) ?_ ?_ ?_
  · simp [mode]
  · simp [State.Seated, setCpu_cpu, own.1]
  · simp [own.1]

theorem look {n : Nat} (mode : (s.cpu c).mode = .scan n) : Placed (s.look c n) := by
  have own := h.seat c
  rw [State.Seated, mode] at own
  obtain ⟨empty, lock⟩ := own
  unfold State.look
  split_ifs with bound runnable
  · refine h.turn rfl (setCpu_cpu _ c _) (.inr lock) (.inr lock) ?_ ?_ ?_
    · simp [mode]
    · simp [State.Seated, setCpu_cpu, lock, runnable]
    · -- Another CPU with this process would hold the lock, or the process would run.
      rintro p ⟨⟩ d other proc
      have := h.seated proc
      grind
  · refine h.turn rfl (setCpu_cpu _ c _) (.inr lock) (.inr lock) ?_ ?_ ?_
    · simp [mode]
    · simp [State.Seated, setCpu_cpu, lock, empty]
    · simp [empty]
  · refine h.turn rfl (setCpu_cpu _ c _) (.inr lock) (.inl rfl) ?_ ?_ ?_
    · simp [mode]
    · simp [State.Seated, setCpu_cpu, empty]
    · simp [empty]

theorem clear (mode : (s.cpu c).mode = .back k) : Placed (s.clear c k) := by
  have own := h.seat c
  rw [State.Seated, mode] at own
  refine h.turn rfl (setCpu_cpu _ c _) (.inr own.2.1) (.inr own.2.1) ?_ ?_ ?_
  · simp [mode]
  · simp [State.Seated, State.clear, setCpu_cpu, own.2.1]
  · simp

theorem switch (mode : (s.cpu c).mode = .chosen k) : Placed (s.switch c k) where
  seat d := by
    have own := h.seat c
    have seat := h.seat d
    have := h.alone c d k
    unfold State.Seated at own seat ⊢
    simp only [State.switch, setCpu_cpu, setCpu_lock, setCpu_proc,
      modify_lock, modify_cpu, modify_proc]
    grind
  alone a b q hereA hereB := by
    have := h.alone a b q
    simp only [State.switch, setCpu_cpu, modify_cpu] at hereA hereB
    grind
  running q running := by
    simp only [State.switch, setCpu_cpu, setCpu_proc, modify_cpu,
      modify_proc] at running ⊢
    grind [cases Placed]
  parked q waits := by
    have := h.parked q
    simp only [switch_proc] at waits ⊢
    grind

/-! ### Processes -/

/-- A process on a CPU that holds the lock looks for an exited child. No such child is on a CPU:
the CPU would hold the lock. -/
theorem waitScan (lock : s.lock = some c) (mode : (s.cpu c).mode = .process p)
    (parked : (s.proc p).parked = none) : Placed (s.waitScan c p p) := by
  have running := (h.process mode).2.1
  obtain ⟨z, _, zombie, moves⟩ | ⟨_, moves | moves⟩ := waitScan_cases s c p p <;> rw [moves]
  · have unseated : ∀ d, (s.cpu d).proc ≠ some z := by
      intro d here
      have := h.seated here
      grind
    have freed : Placed (s.free p z) := h.entries rfl rfl fun q => by
      simp only [free_proc]
      grind [State.Quiet]
    refine freed.release lock mode ?_
    simp only [free_proc]
    grind
  · exact h.release lock mode parked
  · exact h.sched lock mode (h.process mode).1 (by simp)

theorem resume (mode : (s.cpu c).mode = .process p) (parked : (s.proc p).parked = some place)
    (resumes : s.resume c p p place = some t) : Placed t := by
  obtain ⟨seat, running, locked⟩ := h.process mode
  have lock := locked (by simp [parked])
  obtain ⟨chan, moves⟩ := resume_cases resumes
  have unparked : Placed (s.modify p ({ · with parked := none, chan := chan })) := by
    refine h.entries rfl rfl fun q => ?_
    rw [modify_proc]
    grind [State.Quiet]
  obtain rfl | rfl := moves
  · exact unparked.release lock mode (by simp)
  · exact unparked.waitScan lock mode (by simp)

end Placed

/-! ### `fork` -/

namespace Forking

variable {s t : State} {c : Nat} {k p np : Slot}

/-- Steps outside `fork` leave its children alone. -/
theorem entries (h : Forking s) (points : ∀ q, (t.proc q).point = (s.proc q).point)
    (kept : ∀ q, (s.proc q).state = .embryo →
      (t.proc q).state = .embryo ∧ (t.proc q).parked = (s.proc q).parked) : Forking t where
  embryo p np child := (kept np (h.embryo p np (points p ▸ child))).1
  fresh p np point := by
    grind [Point.child, cases Forking]
  sole p q np := by
    rw [points, points]
    exact h.sole p q np

end Forking

/-! ## Every step -/

namespace Placed

variable {s t : State} {c : Nat} {k p q : Slot} (h : Placed s) {np : Slot} {ok : Bool}

include h

theorem unseated (state : (s.proc q).state = .unused ∨ (s.proc q).state = .embryo) :
    ∀ c, (s.cpu c).proc ≠ some q := by
  intro c here
  have := h.seated here
  grind

/-- The process on a CPU is the one its scheduler has chosen, and it runs. -/
theorem runs (runs : s.Runs c k p) : p = k ∧ (s.proc p).state = .running := by
  obtain ⟨seat, running, _⟩ := h.process runs.mode
  obtain rfl : p = k := Option.some.inj (runs.proc.symm.trans seat)
  exact ⟨rfl, running⟩

theorem exit (free : s.lock = none) (runs : s.Runs c k p) : Placed (s.exit c k p) := by
  rw [exit_eq]
  have woken : Placed { s with lock := some c, proc := s.afterExit p } := by
    refine (h.acquire free runs.mode).entries rfl rfl fun q => ?_
    obtain ⟨state, change, after⟩ := afterExit_eq s p q
    simp only [State.Quiet, after, acquire_proc]
    grind
  exact woken.sched rfl runs.mode runs.proc (by simp)

theorem fork (free : s.lock = none) : Placed (s.fork c p) := by
  obtain moves | ⟨np, unused, moves⟩ := fork_cases s c p <;> rw [moves]
  · exact h.entries free.symm rfl fun q => .inl ⟨rfl, rfl⟩
  · have off := h.unseated (.inl unused)
    refine h.entries free.symm rfl fun q => ?_
    simp only [State.Quiet, modify_proc]
    grind

section

variable (embryo : (s.proc np).state = .embryo)

include embryo

theorem giveUp : Placed (s.giveUp p np) := by
  have off := h.unseated (.inr embryo)
  refine h.entries rfl rfl fun q => ?_
  simp only [State.Quiet, State.giveUp, modify_proc]
  grind

theorem kalloc : Placed (s.kalloc p np ok) := by
  cases ok with
  | false => exact h.giveUp embryo
  | true =>
    have off := h.unseated (.inr embryo)
    refine h.entries rfl rfl fun q => ?_
    simp only [State.Quiet, State.kalloc, if_true, modify_proc]
    grind

theorem copyuvm : Placed (s.copyuvm p np ok) := by
  cases ok with
  | false => exact h.giveUp embryo
  | true =>
    refine h.entries rfl rfl fun q => ?_
    simp only [State.Quiet, State.copyuvm, if_true, modify_proc]
    grind

end

theorem publish (free : s.lock = none) (embryo : (s.proc np).state = .embryo)
    (fresh : (s.proc np).parked ≠ none) : Placed (s.publish c p np) := by
  have off := h.unseated (.inr embryo)
  refine h.entries free.symm rfl fun q => ?_
  simp only [State.Quiet, State.publish, release_proc, modify_proc, acquire_proc]
  grind

theorem kill (free : s.lock = none) (pid : Int) : Placed (s.kill c pid).2 := by
  obtain ⟨q, _, moves⟩ | ⟨_, moves⟩ := kill_cases s c pid <;> rw [moves]
  · refine h.entries free.symm rfl fun r => ?_
    simp only [State.Quiet, release_proc, modify_proc, aim, acquire_proc]
    grind
  · exact h.entries free.symm rfl fun q => .inl ⟨rfl, rfl⟩

theorem wakeup (free : s.lock = none) (n : Nat) : Placed (s.wakeup c n) := by
  refine h.entries free.symm rfl fun q => ?_
  simp only [State.Quiet, wakeup_proc, Entry.wake]
  grind

theorem trap : Placed (s.trap p) := by
  refine h.entries rfl rfl fun q => ?_
  simp only [State.Quiet, trap_proc]
  grind

theorem step (forking : Forking s) {action : Action} (moves : Moves s c action t) : Placed t := by
  cases moves with
  | acquire mode free => exact h.enter free mode
  | look n mode => exact h.look mode
  | switch k mode => exact h.switch mode
  | clear k mode => exact h.clear mode
  | wakeup n free => exact h.wakeup free n
  | resume k p place later mode proc parked resumes =>
    obtain rfl : p = k := Option.some.inj (proc.symm.trans (h.process mode).1)
    exact h.resume mode parked resumes
  | fork k p runs free point => exact h.fork free
  | kalloc k p np ok runs point => exact h.kalloc (forking.embryo p np (by rw [point]; rfl))
  | copyuvm k p np ok runs point => exact h.copyuvm (forking.embryo p np (by rw [point]; rfl))
  | publish k p np runs free point =>
    exact h.publish free (forking.embryo p np (by rw [point]; rfl))
      (forking.fresh p np (.inr point))
  | exit k p runs free point other => exact h.exit free runs
  | wait k p runs free point =>
    obtain rfl := (h.runs runs).1
    exact (h.acquire free runs.mode).waitScan rfl runs.mode runs.parked
  | kill k p pid runs free point => exact h.kill free pid
  | yield k p runs free =>
    exact (h.acquire free runs.mode).sched rfl runs.mode runs.proc (by simp)
  | sleep k p n runs free point =>
    exact (h.acquire free runs.mode).sched rfl runs.mode runs.proc (by simp)
  | trap k p runs point => exact h.trap

end Placed

/-! ## What a step does to the processes -/

/-- A process that has been made and has not exited. -/
def ProcState.Alive (state : ProcState) : Prop :=
  state ≠ .unused ∧ state ≠ .embryo ∧ state ≠ .zombie

/-- The state of an entry stays, or changes from one of a living process to another. -/
def Stays (before after : ProcState) : Prop := after = before ∨ before.Alive ∧ after.Alive

/-- Asleep in `wait`. -/
def Entry.Waits (e : Entry) : Prop := e.state = .sleeping ∧ e.parked = some .wait

/-- A step on CPU `c` is one of process `p`: the CPU runs it, and it is not interrupted. -/
def State.Acts (s : State) (c : Nat) (p : Slot) (action : Action) : Prop :=
  (s.cpu c).proc = some p ∧ (s.cpu c).mode = .process p ∧ ∀ n, action ≠ .wakeup n

/-- Neither parent nor number of an entry changes, and it is neither made nor freed. -/
structure Entry.Tame (e later : Entry) : Prop where
  parent : later.parent = e.parent
  point : later.point = e.point
  pid : later.pid = e.pid
  serial : later.serial = e.serial
  state : Stays e.state later.state
  embryo : e.state = .embryo → later.parked = e.parked

/-- The flags for exited and killed processes stay. -/
def Entry.SameFlags (e later : Entry) : Prop :=
  later.killed = e.killed ∧ later.targeted = e.targeted

/-- A step of `fork` in process `p`: the point of `p` and the entry of the child behind it. -/
inductive State.Forks (s : State) (p np : Slot) : Action → Point → Entry → Prop where
  | taken (point : (s.proc p).point = .outside) (unused : (s.proc np).state = .unused) :
      Forks s p np .fork (.stack np) { s.proc np with
        state := .embryo, pid := s.nextpid, serial := s.forks + 1, targeted := false }
  | stack (point : (s.proc p).point = .stack np) :
      Forks s p np (.kalloc true) (.space np) { s.proc np with parked := some .forkret }
  | space (point : (s.proc p).point = .space np) :
      Forks s p np (.copyuvm true) (.publish np) { s.proc np with parent := some p }
  | published (point : (s.proc p).point = .publish np) :
      Forks s p np .publish .outside { s.proc np with state := .runnable }
  | dropped (ok : Action) (fails : ok = .kalloc false ∨ ok = .copyuvm false)
      (point : (s.proc p).point = .stack np ∨ (s.proc p).point = .space np) :
      Forks s p np ok .outside { s.proc np with state := .unused }

/-- Numbers of processes and what `wait` has returned. -/
def State.counts (s : State) : Int × Nat × List Reaped := (s.nextpid, s.forks, s.reaped)

/-- What a step of CPU `c` does to the entries. -/
inductive Effect (s t : State) (c : Nat) (action : Action) : Prop where
  | tame (counts : t.counts = s.counts) (each : ∀ q, (s.proc q).Tame (t.proc q))
      (flags : (∀ pid, action ≠ .kill pid) → action ≠ .trap →
        ∀ q, (s.proc q).SameFlags (t.proc q))
      (asleep : ∀ p, (t.proc p).Waits → (s.proc p).Waits ∧ (t.proc p).chan = (s.proc p).chan ∨
        (t.proc p).chan = some (.proc p) ∧
          ∀ q, (s.proc q).parent = some p → (s.proc q).state ≠ .zombie)
  | fork (p np : Slot) (point : Point) (e : Entry) (acts : s.Acts c p action)
      (running : (s.proc p).state = .running) (other : np ≠ p)
      (forks : s.Forks p np action point e)
      (after : ∀ q, t.proc q = if q = p then { s.proc p with point := point }
        else if q = np then e else s.proc q)
      (counts : t.counts = if action = .fork then (incr s.nextpid, s.forks + 1, s.reaped)
        else s.counts)
  | exit (k p : Slot) (acts : s.Acts c p action) (exits : action = .exit)
      (running : (s.proc p).state = .running) (point : (s.proc p).point = .outside)
      (other : p ≠ initproc) (moves : t = s.exit c k p)
  /-- `wait` frees an exited child. -/
  | freed (p z : Slot) (acts : s.Acts c p action) (waits : action = .wait ∨ action = .resume)
      (turn : s.lock = none ∨ (s.proc p).parked ≠ none)
      (child : (s.proc z).parent = some p) (zombie : (s.proc z).state = .zombie)
      (gone : t.proc z = { s.proc z with
        pid := 0, parent := none, killed := false, state := .unused })
      (each : ∀ q, q ≠ z → (s.proc q).Tame (t.proc q) ∧ (s.proc q).SameFlags (t.proc q))
      (asleep : ∀ q, (t.proc q).Waits → (s.proc q).Waits ∧ (t.proc q).chan = (s.proc q).chan)
      (counts : t.counts =
        (s.nextpid, s.forks, ⟨p, z, (s.proc z).pid, (s.proc z).serial⟩ :: s.reaped))

namespace Effect

variable {s t : State} {c : Nat} {action : Action} {k p : Slot}

/-- A step that changes no entry. -/
theorem same (counts : t.counts = s.counts) (proc : t.proc = s.proc) : Effect s t c action :=
  .tame counts (fun q => by rw [proc]; exact ⟨rfl, rfl, rfl, rfl, .inl rfl, fun _ => rfl⟩)
    (fun _ _ q => by rw [proc]; exact ⟨rfl, rfl⟩)
    fun p waits => .inl (by rw [proc] at waits ⊢; exact ⟨waits, rfl⟩)

/-- A step that changes one entry. -/
theorem one {e : Entry} (after : ∀ q, t.proc q = if q = p then e else s.proc q)
    (counts : t.counts = s.counts) (tame : (s.proc p).Tame e)
    (flags : action ≠ .trap → (s.proc p).SameFlags e) (asleep : e.Waits → e.chan = some (.proc p) ∧
      ∀ q, (s.proc q).parent = some p → (s.proc q).state ≠ .zombie) : Effect s t c action := by
  refine .tame counts (fun q => ?_) (fun _ fatal q => ?_) fun q waits => ?_
  · rw [after]
    split_ifs with here
    · exact here ▸ tame
    · exact ⟨rfl, rfl, rfl, rfl, .inl rfl, fun _ => rfl⟩
  · rw [after]
    split_ifs with here
    · exact here ▸ flags fatal
    · exact ⟨rfl, rfl⟩
  · rw [after] at waits ⊢
    split_ifs at waits ⊢ with here
    · exact here ▸ .inr (asleep waits)
    · exact .inl ⟨waits, rfl⟩

/-- `wait` looks for exited children, in a state `u` in which only its own `swtch` is over. -/
theorem waitScan {u : State} (chan : Option Chan) (counts : u.counts = s.counts)
    (after : ∀ q, u.proc q =
      if q = p then { s.proc p with parked := none, chan := chan } else s.proc q)
    (acts : s.Acts c p action) (waits : action = .wait ∨ action = .resume)
    (turn : s.lock = none ∨ (s.proc p).parked ≠ none) (running : (s.proc p).state = .running) :
    Effect s (u.waitScan c k p) c action := by
  have tame : (s.proc p).Tame { s.proc p with parked := none, chan := chan } :=
    ⟨rfl, rfl, rfl, rfl, .inl rfl, by simp [running]⟩
  obtain ⟨z, child, zombie, moves⟩ | ⟨none, moves | moves⟩ := waitScan_cases u c k p <;>
    rw [moves]
  · have here : z ≠ p := by grind
    have entry := after z
    rw [if_neg here] at entry
    refine .freed p z acts waits turn (entry ▸ child) (entry ▸ zombie) ?_ (fun q other => ?_)
      (fun q asleep => ?_) ?_
    · rw [release_proc, free_proc, if_pos rfl, entry]
    · rw [release_proc, free_proc, if_neg other, after]
      split_ifs with own
      · subst own
        exact ⟨tame, rfl, rfl⟩
      · exact ⟨⟨rfl, rfl, rfl, rfl, .inl rfl, fun _ => rfl⟩, rfl, rfl⟩
    · simp only [release_proc, free_proc, Entry.Waits] at asleep ⊢
      grind
    · rw [← entry]
      simp only [State.counts, State.release, State.free, Prod.mk.injEq] at counts ⊢
      exact ⟨counts.1, counts.2.1, by rw [counts.2.2]⟩
  · exact .one after counts tame (fun _ => ⟨rfl, rfl⟩) (by simp [Entry.Waits])
  · refine .one (p := p) (e := { s.proc p with
      chan := some (.proc p), state := .sleeping, parked := some .wait }) (fun q => ?_) counts
      ⟨rfl, rfl, rfl, rfl, .inr ?_, by simp [running]⟩ (fun _ => ⟨rfl, rfl⟩)
      fun _ => ⟨rfl, fun q child => ?_⟩
    · rw [sleepOn_proc]
      grind
    · simp [ProcState.Alive, running]
    · have := none q
      grind

end Effect

variable {action : Action} {s t : State} {c : Nat}

theorem Placed.acts {k p : Slot} (h : Placed s) (runs : s.Runs c k p)
    (own : ∀ n, action ≠ .wakeup n) : s.Acts c p action := by
  obtain ⟨rfl, _⟩ := h.runs runs
  exact ⟨runs.proc, runs.mode, own⟩

theorem Moves.effect (moves : Moves s c action t) (placed : Placed s) (forking : Forking s) :
    Effect s t c action := by
  have other : ∀ {k p np}, s.Runs c k p → (s.proc p).point.child = some np → np ≠ p := by
    rintro k p np runs child rfl
    simpa [(placed.runs runs).2] using forking.embryo _ _ child
  cases moves with
  | acquire | clear => exact .same rfl rfl
  | look n mode =>
    unfold State.look
    split_ifs <;> exact .same rfl rfl
  | switch k mode =>
    have seat := placed.seat c
    rw [State.Seated, mode] at seat
    refine .one (fun q => s.switch_proc c q k) rfl ⟨rfl, rfl, rfl, rfl, .inr ?_, ?_⟩
      (fun _ => ⟨rfl, rfl⟩) (by simp [Entry.Waits])
    · simp [ProcState.Alive, seat.2.2]
    · simp [seat.2.2]
  | wakeup n free =>
    refine .tame rfl (fun q => ?_) (fun _ _ q => ?_) fun q waits => ?_ <;>
      obtain ⟨state, change, after⟩ := (s.proc q).wake_eq (some (.other n)) <;>
      simp only [wakeup_proc, after, Entry.Waits] at *
    · refine ⟨rfl, rfl, rfl, rfl, ?_, fun _ => rfl⟩
      grind [Stays, ProcState.Alive]
    · exact ⟨rfl, rfl⟩
    · grind
  | resume k p place later mode proc parked resumes =>
    obtain ⟨seat, running, _⟩ := placed.process mode
    obtain rfl : p = k := Option.some.inj (proc.symm.trans seat)
    obtain ⟨chan, rfl | rfl⟩ := resume_cases resumes
    · exact .one (p := p) (e := { s.proc p with parked := none, chan := chan })
        (fun q => by rw [release_proc, modify_proc]) rfl
        ⟨rfl, rfl, rfl, rfl, .inl rfl, by simp [running]⟩ (fun _ => ⟨rfl, rfl⟩)
        (by simp [Entry.Waits])
    · exact .waitScan chan rfl (fun q => s.modify_proc p q _) ⟨proc, mode, by simp⟩ (.inr rfl)
        (.inr (by simp [parked])) running
  | fork k p runs free point =>
    obtain moves | ⟨np, unused, moves⟩ := fork_cases s c p <;> rw [moves]
    · exact .same rfl rfl
    · have running := (placed.runs runs).2
      have other : np ≠ p := by grind
      refine .fork p np _ _ (placed.acts runs (by simp)) running other (.taken point unused)
        (fun q => ?_) rfl
      simp [modify_proc, other.symm]
  | kalloc k p np ok runs point =>
    have other := other runs (by rw [point]; rfl)
    cases ok with
    | false =>
      exact .fork p np _ _ (placed.acts runs (by simp)) (placed.runs runs).2 other
        (.dropped _ (.inl rfl) (.inl point)) (fun q => s.giveUp_proc p q other) rfl
    | true =>
      refine .fork p np _ _ (placed.acts runs (by simp)) (placed.runs runs).2 other
        (.stack point) (fun q => ?_) rfl
      simp [State.kalloc, modify_proc, other.symm]
  | copyuvm k p np ok runs point =>
    have other := other runs (by rw [point]; rfl)
    cases ok with
    | false =>
      exact .fork p np _ _ (placed.acts runs (by simp)) (placed.runs runs).2 other
        (.dropped _ (.inr rfl) (.inr point)) (fun q => s.giveUp_proc p q other) rfl
    | true =>
      refine .fork p np _ _ (placed.acts runs (by simp)) (placed.runs runs).2 other
        (.space point) (fun q => ?_) rfl
      simp [State.copyuvm, modify_proc, other.symm]
  | publish k p np runs free point =>
    have other := other runs (by rw [point]; rfl)
    exact .fork p np _ _ (placed.acts runs (by simp)) (placed.runs runs).2 other
      (.published point) (fun q => s.publish_proc c p q other) rfl
  | exit k p runs free point other =>
    exact .exit k p (placed.acts runs (by simp)) rfl (placed.runs runs).2 point other rfl
  | wait k p runs free point =>
    refine .waitScan (s.proc p).chan rfl (fun q => ?_) (placed.acts runs (by simp)) (.inl rfl)
      (.inl free) (placed.runs runs).2
    rw [← runs.parked]
    split_ifs with own
    · exact own ▸ rfl
    · rfl
  | kill k p pid runs free point =>
    obtain ⟨q, _, moves⟩ | ⟨_, moves⟩ := kill_cases s c pid <;> rw [moves]
    · refine .tame rfl (fun q => ?_) (fun kills => absurd rfl (kills pid)) fun q waits => ?_
      all_goals simp only [release_proc, modify_proc, aim, acquire_proc,
        Entry.Waits] at *
      · constructor <;> grind [Stays, ProcState.Alive]
      · grind
    · exact .same rfl rfl
  | yield k p runs free =>
    refine .one (fun q => s.yield_proc c p q k) rfl ⟨rfl, rfl, rfl, rfl, .inr ?_, ?_⟩
      (fun _ => ⟨rfl, rfl⟩) (by simp [Entry.Waits])
    · simp [ProcState.Alive, (placed.runs runs).2]
    · simp [(placed.runs runs).2]
  | sleep k p n runs free point =>
    refine .one (fun q => s.sleep_proc c p q k n) rfl ⟨rfl, rfl, rfl, rfl, .inr ?_, ?_⟩
      (fun _ => ⟨rfl, rfl⟩) (by simp [Entry.Waits])
    · simp [ProcState.Alive, (placed.runs runs).2]
    · simp [(placed.runs runs).2]
  | trap k p runs point =>
    exact .one (fun q => s.trap_proc p q) rfl ⟨rfl, rfl, rfl, rfl, .inl rfl, fun _ => rfl⟩
      (fun fatal => absurd rfl fatal) (by simp [Entry.Waits, (placed.runs runs).2])

theorem Forking.step (h : Forking s) (placed : Placed s) (moves : Moves s c action t) :
    Forking t := by
  cases moves.effect placed h with
  | tame counts each =>
    refine h.entries (fun q => (each q).point) fun q embryo => ⟨?_, (each q).embryo embryo⟩
    have := (each q).state
    grind [Stays, ProcState.Alive]
  | fork p np point e acts running other forks after =>
    have mine : ∀ q nq, (s.proc q).point.child = some nq → (s.proc p).point.child = some nq →
        q = p := fun q nq child => h.sole q p nq child
    refine ⟨fun q nq child => ?_, fun q nq point => ?_, fun a b nq childA childB => ?_⟩
    · have := h.embryo q nq
      have := h.embryo p np
      rw [after] at child ⊢
      grind [State.Forks, Point.child]
    · have := h.fresh q nq
      have := h.fresh p np
      have := h.embryo q nq
      rw [after] at point ⊢
      grind [State.Forks, Point.child]
    · have := h.sole a b nq
      have := h.embryo a nq
      have := h.embryo b nq
      rw [after] at childA childB
      grind [State.Forks, Point.child]
  | exit k p acts exits running point other moves =>
    subst moves
    refine h.entries (fun q => ?_) fun q embryo => ?_
    all_goals
      obtain ⟨state, change, after⟩ := afterExit_eq s p q
      rw [exit_proc]
      grind
  | freed p z acts waits turn child zombie gone each =>
    refine h.entries (fun q => ?_) fun q embryo => ?_ <;> by_cases here : q = z
    · rw [here, gone]
    · exact (each q here).1.point
    · simp [here, zombie] at embryo
    · have := (each q here).1.state
      exact ⟨by grind [Stays, ProcState.Alive], (each q here).1.embryo embryo⟩

/-- Only `wait` adds to the record, and it adds what it returns. It is called with the lock free
or goes on behind `swtch`. -/
theorem Moves.reaps {later : State} (moves : Moves s c action later) (placed : Placed s)
    (forking : Forking s) :
    later.reaped = s.reaped ∨ ∃ r k, Reaps s later c r ∧ (s.cpu c).mode = .process k ∧
      (s.lock = none ∨ (s.proc r.waiter).parked ≠ none) := by
  cases moves.effect placed forking with
  | tame counts => exact .inl (congrArg (·.2.2) counts)
  | fork p np point e acts running other forks after counts =>
    refine .inl ((congrArg (·.2.2) counts).trans ?_)
    split_ifs <;> rfl
  | exit k p acts exits running point other moves =>
    rw [moves, exit_eq]
    exact .inl rfl
  | freed p z acts waits turn child zombie gone each asleep counts =>
    exact .inr ⟨⟨p, z, _, _⟩, p, ⟨acts.1, child, zombie, rfl, rfl, by rw [gone],
      congrArg (·.2.2) counts⟩, acts.2.1, turn⟩

theorem placed_boot : Placed boot where
  seat c := by simp [State.Seated, boot]
  alone c d p here := by simp [boot] at here
  running p running := by
    unfold boot at running
    grind [Entry.unused]
  parked p waits := by
    unfold boot at waits ⊢
    grind [Entry.unused]

theorem forking_boot : Forking boot := by
  constructor <;> grind [boot, Entry.unused, Point.child]

/-- In every state reached, CPUs and processes agree. -/
theorem placed_of_reach {allowed : State → Nat × Action → Prop}
    (reached : Lib.Reach procStep allowed boot s) : Placed s ∧ Forking s := by
  refine reached.invariant (fun s => Placed s ∧ Forking s) ⟨placed_boot, forking_boot⟩ ?_
  rintro s ⟨c, action⟩ later ⟨placed, forking⟩ _ moves
  have moves := procStep_moves moves
  exact ⟨placed.step forking moves, forking.step placed moves⟩

/-- Whenever `ptable.lock` is free a process runs exactly if one CPU has it as `c->proc`, and no
two CPUs have the same process; the child whose stack and page table `wait` frees is not on any
CPU. -/
theorem one_cpu_per_process {s : State} (reached : Lib.Reach procStep (fun _ _ => True) boot s) :
    (s.lock = none →
      (∀ p, (s.proc p).state = .running ↔ ∃! c, (s.cpu c).proc = some p) ∧
      ∀ c d p, (s.cpu c).proc = some p → (s.cpu d).proc = some p → c = d) ∧
    ∀ event later r, procStep s event = some later → later.reaped = r :: s.reaped →
      ∀ c, (s.cpu c).proc ≠ some r.child ∧ (later.cpu c).proc ≠ some r.child := by
  obtain ⟨placed, forking⟩ := placed_of_reach reached
  refine ⟨fun free => ⟨fun p => ⟨fun running => ?_, ?_⟩, placed.alone⟩, ?_⟩
  · obtain ⟨c, mode⟩ := placed.running p running
    have here := (placed.process mode).1
    exact ⟨c, here, fun d there => placed.alone d c p there here⟩
  · rintro ⟨c, here, _⟩
    have := placed.seated here
    grind
  · rintro ⟨c, action⟩ later r moves reaped d
    have moves := procStep_moves moves
    obtain same | ⟨r', k, reaps, mode, turn⟩ := moves.reaps placed forking
    · simp [reaped] at same
    · obtain rfl : r = r' := by simpa [reaped] using reaps.reaped
      refine ⟨fun there => ?_, (placed.step forking moves).unseated (.inl reaps.unused) d⟩
      -- A CPU with an exited process holds the lock; the lock is free or belongs to the waiter's.
      obtain ⟨seat, running, locked⟩ := placed.process mode
      have zombie := reaps.zombie
      have := placed.seated there
      have := reaps.proc
      grind

/-- The slot of the first child of init. -/
def firstChild : Slot := ⟨1, by decide⟩

/-- Init forks on CPU 0, and CPU 1 runs the child. -/
def forkOnTwo : List (Nat × Action) :=
  [(0, .acquire), (0, .look), (0, .switch), (0, .resume), (0, .fork), (0, .kalloc true),
    (0, .copyuvm true), (0, .publish), (1, .acquire), (1, .look), (1, .look), (1, .switch),
    (1, .resume)]

/-- Both processes run, and CPU 1 is the only one that has the child. -/
theorem one_cpu_per_process_two : ∃ s : State, s.lock = none ∧
    (s.proc firstChild).state = .running ∧ (s.cpu 1).proc = some firstChild ∧
    ∃! c, (s.cpu c).proc = some firstChild := by
  obtain ⟨s, reached, free, running, here⟩ : ∃ s, Lib.Reach procStep (fun _ _ => True) boot s ∧
      s.lock = none ∧ (s.proc firstChild).state = .running ∧ (s.cpu 1).proc = some firstChild :=
    Lib.exists_reach forkOnTwo (by decide +kernel)
  exact ⟨s, free, running, here, (((one_cpu_per_process reached).1 free).1 _).mp running⟩

end Xv6.Proc
