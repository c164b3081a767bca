import Xv6.Proc.Family

/-!
# Who is killed

`kill` compares pids alone, in all entries, and nothing but `wait` clears `killed`. An unused
entry has pid 0, or the pid of a child that `fork` gave up, so a `kill` can mark it, and the next
process in the slot starts out killed. The same happens when a `fork` fails after its child has
been killed. In runs where neither happens `killed` means what it says.
-/

namespace Xv6.Proc

/-- The entry that `kill` marks is not unused, and the child of a failing `fork` is not killed. -/
def KillSafe (s : State) (event : Nat × Action) : Prop :=
  match event.2 with
  | .kill pid => ∀ q ∈ s.first fun e => e.pid = pid, (s.proc q).state ≠ .unused
  | .kalloc false | .copyuvm false => ∀ p ∈ (s.cpu event.1).proc,
      ∀ np ∈ (s.proc p).point.child, (s.proc np).killed = false
  | _ => True

instance (s : State) (event : Nat × Action) : Decidable (KillSafe s event) := by
  unfold KillSafe
  split <;> infer_instance

/-- Only processes at which a `kill` or a fatal trap was aimed are killed. -/
structure Aimed (s : State) : Prop where
  clean : ∀ q, (s.proc q).state = .unused → (s.proc q).killed = false
  aimed : ∀ q, (s.proc q).state ≠ .unused → (s.proc q).killed = true →
    (s.proc q).targeted = true

namespace Aimed

variable {s t : State} {c : Nat} {p np : Slot} {action : Action} {point : Point} {e : Entry}

/-- Steps that set no flag and free no entry. -/
theorem entries (h : Aimed s)
    (each : ∀ q, ((t.proc q).state = .unused ↔ (s.proc q).state = .unused) ∧
      (s.proc q).SameFlags (t.proc q)) : Aimed t where
  clean q := by
    have := h.clean q
    have := each q
    grind [Entry.SameFlags]
  aimed q := by
    have := h.aimed q
    have := each q
    grind [Entry.SameFlags]

/-- `kill` aims at every process with the pid, so also at the one it marks. -/
theorem kill (h : Aimed s) {pid : Int}
    (used : ∀ q ∈ s.first fun e => e.pid = pid, (s.proc q).state ≠ .unused) :
    Aimed (s.kill c pid).2 := by
  unfold State.kill
  simp only
  cases found : (s.acquire c).first fun e => e.pid = pid with
  | none => exact h.entries fun q => ⟨.rfl, rfl, rfl⟩
  | some q =>
    have used := used q found
    have pid := State.first_some found
    simp only [decide_eq_true_eq] at pid
    exact {
      clean := fun r => by
        have := h.clean r
        simp only [State.release_proc, State.modify_proc, State.aim, State.acquire_proc]
        grind
      aimed := fun r => by
        have := h.aimed r
        simp only [State.release_proc, State.modify_proc, State.aim, State.acquire_proc] at pid ⊢
        grind }

/-- `fork` starts with a clean entry, and drops no killed child. -/
theorem fork (h : Aimed s) (forking : Forking s) (safe : KillSafe s (c, action))
    (acts : s.Acts c p action) (running : (s.proc p).state = .running)
    (forks : s.Forks p np action point e)
    (after : ∀ q, t.proc q = if q = p then { s.proc p with point := point }
      else if q = np then e else s.proc q) : Aimed t := by
  have embryo := forking.embryo p np
  have spared : action = .kalloc false ∨ action = .copyuvm false →
      (s.proc p).point.child = some np → (s.proc np).killed = false := by
    rintro (rfl | rfl) child <;> exact safe p acts.1 np child
  constructor <;> intro q <;> rw [after]
  · have := h.clean q
    have := h.clean np
    grind [State.Forks, Point.child]
  · have := h.aimed q
    have := h.aimed np
    have := h.clean np
    grind [State.Forks, Point.child]

theorem step (h : Aimed s) (placed : Placed s) (forking : Forking s)
    (safe : KillSafe s (c, action)) (moves : Moves s c action t) : Aimed t := by
  cases moves.effect placed forking with
  | tame counts each flags =>
    cases moves with
    | kill k p pid runs free point => exact h.kill safe
    | trap k p runs point =>
      have running := (placed.runs runs).2
      constructor <;> grind [State.trap_proc, cases Aimed]
    | _ =>
      refine h.entries fun q => ⟨?_, flags (by simp) (by simp) q⟩
      have := (each q).state
      grind [Stays, ProcState.Alive]
  | fork p np point e acts running other forks after =>
    exact h.fork forking safe acts running forks after
  | exit k p acts exits running point other moves =>
    subst moves
    refine h.entries fun q => ?_
    obtain ⟨state, change, after⟩ := afterExit_eq s p q
    rw [exit_proc]
    grind [Entry.SameFlags]
  | freed p z acts waits turn child zombie gone each =>
    constructor <;> intro q <;> by_cases here : q = z
    · simp [here, gone]
    · have := h.clean q
      have := each q here
      grind [Stays, ProcState.Alive, Entry.SameFlags, cases Entry.Tame]
    · simp [here, gone]
    · have := h.aimed q
      have := each q here
      grind [Stays, ProcState.Alive, Entry.SameFlags, cases Entry.Tame]

end Aimed

theorem aimed_boot : Aimed boot where
  clean := by
    intro q
    simp only [boot, Entry.unused]
    grind
  aimed := by
    intro q
    simp only [boot, Entry.unused]
    grind

/-- In a run in which no `kill` marks an unused entry and no `fork` fails with a killed child, a
process is killed only if a `kill` of its pid or a fatal trap was aimed at it since it was
allocated; `allocproc` returns entries that are not killed, and a `kill` that marks no unused
entry returns 0 only if there is a process with the pid. -/
theorem killed_only_if_targeted {s : State} (reached : Lib.Reach procStep KillSafe boot s) :
    (∀ q, (s.proc q).state ≠ .unused → (s.proc q).killed = true →
      (s.proc q).targeted = true) ∧
    (∀ c p np later, (s.acquire c).allocproc p = some (np, later) →
      (later.proc np).killed = false) ∧
    ∀ c pid, KillSafe s (c, .kill pid) → (s.kill c pid).1 = 0 →
      ∃ q, (s.proc q).state ≠ .unused ∧ (s.proc q).pid = pid := by
  have all : (Placed s ∧ Forking s) ∧ Aimed s := by
    refine reached.invariant (fun s => (Placed s ∧ Forking s) ∧ Aimed s)
      ⟨⟨placed_boot, forking_boot⟩, aimed_boot⟩ ?_
    rintro s ⟨c, action⟩ later ⟨⟨placed, forking⟩, aimed⟩ safe moves
    have moves := procStep_moves moves
    exact ⟨⟨placed.step forking moves, forking.step placed moves⟩,
      aimed.step placed forking safe moves⟩
  obtain ⟨_, aimed⟩ := all
  refine ⟨aimed.aimed, fun c p np later allocated => ?_, fun c pid safe result => ?_⟩
  · unfold State.allocproc at allocated
    split at allocated
    · contradiction
    · rename_i slot found
      have unused := State.first_some found
      simp only [decide_eq_true_eq] at unused
      have clean := aimed.clean slot unused
      cases allocated
      simp only [State.modify_proc, State.acquire_proc]
      grind
  · unfold State.kill at result
    simp only at result
    split at result
    · rename_i q found
      have same := State.first_some found
      simp only [decide_eq_true_eq] at same
      exact ⟨q, safe q found, same⟩
    · contradiction

/-- Init forks, CPU 1 runs the child, and init kills it. -/
def killChild : List (Nat × Action) := forkOnTwo ++ [(0, .kill 2)]

/-- The child is killed, and it was aimed at. -/
theorem killed_only_if_targeted_child : ∃ s : State,
    (s.proc firstChild).state = .running ∧ (s.proc firstChild).killed = true ∧
      (s.proc firstChild).targeted = true := by
  obtain ⟨s, reached, running, killed⟩ : ∃ s, Lib.Reach procStep KillSafe boot s ∧
      (s.proc firstChild).state = .running ∧ (s.proc firstChild).killed = true :=
    Lib.exists_reach killChild (by decide +kernel)
  exact ⟨s, running, killed,
    (killed_only_if_targeted reached).1 firstChild (by simp [running]) killed⟩

/-- Init runs on CPU 0. -/
def runInit : List (Nat × Action) := [(0, .acquire), (0, .look), (0, .switch), (0, .resume)]

/-- `kill(0)` marks the first unused entry and returns 0, although no process has pid 0; the
child that init forks next is killed from the start, and nothing was aimed at it. -/
theorem kill_zero_marks_next_child :
    (∃ s, Lib.Reach procStep (fun _ _ => True) boot s ∧ (s.kill 0 0).1 = 0 ∧
      ∀ q, (s.proc q).state ≠ .unused → (s.proc q).pid ≠ 0) ∧
    ∃ s, Lib.Reach procStep (fun _ _ => True) boot s ∧
      (s.proc firstChild).state = .running ∧ (s.proc firstChild).killed = true ∧
      (s.proc firstChild).targeted = false :=
  ⟨Lib.exists_reach runInit (by decide +kernel),
    Lib.exists_reach (runInit ++ [(0, .kill 0)] ++ forkOnTwo.drop 4) (by decide +kernel)⟩

end Xv6.Proc
