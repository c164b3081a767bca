import Xv6.Proc.Cpu

/-!
# Parents and children

`exit` passes the children of a process to init, wakes the two processes that may be waiting and
makes the process a zombie, all under `ptable.lock`; `wait` frees zombies. The invariant relates
parents, states and channels of all entries, with the children that `fork` is still making.
-/

namespace Xv6.Proc

open List

/-- Parents are alive, and no process sleeps in `wait` over an exited child. -/
structure Family (s : State) : Prop where
  init : (s.proc initproc).state.Alive
  root : (s.proc initproc).parent = none
  parent : ∀ q p, (s.proc q).parent = some p → q ≠ p ∧ (s.proc p).state.Alive
  adopted : ∀ q, q ≠ initproc → (s.proc q).state ≠ .unused → (s.proc q).state ≠ .embryo →
    (s.proc q).parent ≠ none
  unused : ∀ q, (s.proc q).state = .unused → (s.proc q).parent = none
  /-- Before `np->parent = curproc`. -/
  unborn : ∀ p np, (s.proc p).point = .stack np ∨ (s.proc p).point = .space np →
    (s.proc np).parent = none
  born : ∀ p np, (s.proc p).point = .publish np → (s.proc np).parent = some p
  embryo : ∀ p q, (s.proc q).state = .embryo → (s.proc q).parent = some p →
    (s.proc p).point = .publish q
  asleep : ∀ p, (s.proc p).Waits → (s.proc p).chan = some (.proc p) ∧
    ∀ q, (s.proc q).parent = some p → (s.proc q).state ≠ .zombie

/-- What the entry of a child says while `fork` is at a point of process `p`. -/
inductive Stage (p np : Slot) : Point → ProcState → Option Slot → Prop where
  | stack : Stage p np (.stack np) .embryo none
  | space : Stage p np (.space np) .embryo none
  | publish : Stage p np (.publish np) .embryo (some p)
  | made : Stage p np .outside .runnable (some p)
  | dropped : Stage p np .outside .unused none

namespace Family

variable {s t : State} {c : Nat} {k p np : Slot} {action : Action} {point : Point} {e : Entry}
  (h : Family s)

include h

/-- Steps that make and free no process and change no parent. -/
theorem tame (each : ∀ q, (s.proc q).Tame (t.proc q)) (asleep : ∀ p, (t.proc p).Waits →
      (s.proc p).Waits ∧ (t.proc p).chan = (s.proc p).chan ∨
      (t.proc p).chan = some (.proc p) ∧
        ∀ q, (s.proc q).parent = some p → (s.proc q).state ≠ .zombie) : Family t where
  init := by
    have := h.init
    have := (each initproc).state
    grind [Stays]
  root := (each _).parent.trans h.root
  parent q p child := by
    have := h.parent q p ((each q).parent ▸ child)
    have := (each p).state
    grind [Stays]
  adopted q := by
    have := h.adopted q
    grind [Stays, ProcState.Alive, cases Entry.Tame]
  unused q := by
    have := h.unused q
    grind [Stays, ProcState.Alive, cases Entry.Tame]
  unborn p np := by
    rw [(each p).point, (each np).parent]
    exact h.unborn p np
  born p np := by
    rw [(each p).point, (each np).parent]
    exact h.born p np
  embryo p q := by
    have := h.embryo p q
    rw [(each p).point, (each q).parent]
    have := (each q).state
    grind [Stays, ProcState.Alive]
  asleep p waits := by
    have := h.asleep p
    have := asleep p waits
    grind [Stays, ProcState.Alive, cases Entry.Tame]

/-- What a step of `fork` leaves in the entry of the child. -/
theorem stage (forking : Forking s) (forks : s.Forks p np action point e) :
    Stage p np point e.state e.parent := by
  have embryo := forking.embryo p np
  cases forks with
  | taken here unused =>
    rw [h.unused np unused]
    exact .stack
  | stack here =>
    rw [embryo (by rw [here]; rfl), h.unborn p np (.inl here)]
    exact .space
  | space here =>
    rw [embryo (by rw [here]; rfl)]
    exact .publish
  | published here =>
    rw [h.born p np here]
    exact .made
  | dropped ok fails here =>
    rw [h.unborn p np here]
    exact .dropped

/-- A step of `fork`: process `p` moves to another point and the entry of its child follows. -/
theorem fork (forking : Forking s) (running : (s.proc p).state = .running)
    (forks : s.Forks p np action point e)
    (after : ∀ q, t.proc q = if q = p then { s.proc p with point := point }
      else if q = np then e else s.proc q) : Family t := by
  have stage := h.stage forking forks
  have own : e.point = (s.proc np).point := by cases forks <;> rfl
  have before : (s.proc p).point.child = some np ∨
      (s.proc p).point = .outside ∧ (s.proc np).state = .unused := by
    cases forks <;> grind [Point.child]
  have state : (s.proc np).state = .embryo ∨ (s.proc np).state = .unused := by
    rcases before with child | ⟨_, unused⟩
    · exact .inl (forking.embryo p np child)
    · exact .inr unused
  -- No other process is making this child.
  have sole : ∀ q, (s.proc q).point.child = some np → q = p := by
    intro q child
    have := forking.embryo q np child
    have := forking.sole q p np child
    grind
  clear forks
  exact {
    init := by
      have := h.init
      rw [after]
      grind [ProcState.Alive]
    root := by
      have := h.init
      have := h.root
      rw [after]
      grind [ProcState.Alive]
    parent := fun q r => by
      have := h.parent q r
      rw [after, after]
      grind [ProcState.Alive, Stage]
    adopted := fun q => by
      have := h.adopted q
      rw [after]
      grind [Stage]
    unused := fun q => by
      have := h.unused q
      rw [after]
      grind [Stage, ProcState.Alive]
    unborn := fun q nq => by
      have := h.unborn q nq
      rw [after, after]
      grind [Stage, Point.child, ProcState.Alive]
    born := fun q nq => by
      have := h.born q nq
      rw [after, after]
      grind [Stage, Point.child, ProcState.Alive]
    embryo := fun r q => by
      have := h.embryo r q
      rw [after, after]
      grind [Stage, Point.child, ProcState.Alive]
    asleep := fun q => by
      have := h.asleep q
      simp only [after, Entry.Waits]
      grind [Stage, ProcState.Alive, Entry.Waits] }

/-- `wait` frees an exited child. -/
theorem free (forking : Forking s) {z : Slot} (zombie : (s.proc z).state = .zombie)
    (gone : (t.proc z).parent = none ∧ (t.proc z).state = .unused ∧
      (t.proc z).point = (s.proc z).point) (each : ∀ q, q ≠ z → (s.proc q).Tame (t.proc q))
    (asleep : ∀ q, (t.proc q).Waits → (s.proc q).Waits ∧ (t.proc q).chan = (s.proc q).chan) :
    Family t := by
  have parents : ∀ q, (t.proc q).parent = if q = z then none else (s.proc q).parent := by
    grind [cases Entry.Tame]
  have points : ∀ q, (t.proc q).point = (s.proc q).point := by
    grind [cases Entry.Tame]
  have states : ∀ q, q ≠ z → Stays (s.proc q).state (t.proc q).state := fun q other =>
    (each q other).state
  exact {
    init := by
      have := h.init
      have := states initproc
      grind [ProcState.Alive, Stays]
    root := by
      have := h.root
      grind
    parent := fun q r => by
      have := h.parent q r
      have := states r
      grind [ProcState.Alive, Stays]
    adopted := fun q => by
      have := h.adopted q
      have := states q
      grind [ProcState.Alive, Stays]
    unused := fun q => by
      have := h.unused q
      have := states q
      grind [ProcState.Alive, Stays]
    unborn := fun q nq => by
      have := h.unborn q nq
      grind
    born := fun q nq => by
      have := h.born q nq
      have := forking.embryo q nq
      grind [Point.child]
    embryo := fun r q => by
      have := h.embryo r q
      have := states q
      grind [ProcState.Alive, Stays]
    asleep := fun q waits => by
      obtain ⟨before, chan⟩ := asleep q waits
      obtain ⟨own, none⟩ := h.asleep q before
      refine ⟨chan.trans own, fun r child => ?_⟩
      have := none r
      have := states r
      grind [ProcState.Alive, Stays] }

/-- `exit` of a process that is not in `fork`: its children go to init, and whoever waits for it
or for one of them is woken. -/
theorem exit (other : p ≠ initproc) (alive : (s.proc p).state.Alive)
    (point : (s.proc p).point = .outside) : Family (s.exit c k p) := by
  have parents : ∀ q, ((s.exit c k p).proc q).parent =
      if (s.proc q).parent = some p then some initproc else (s.proc q).parent := by
    intro q
    obtain ⟨state, _, after⟩ := afterExit_eq s p q
    rw [exit_proc]
    grind
  have points : ∀ q, ((s.exit c k p).proc q).point = (s.proc q).point := by
    intro q
    obtain ⟨state, _, after⟩ := afterExit_eq s p q
    rw [exit_proc]
    grind
  have states : ∀ q, ((s.exit c k p).proc q).state =
      if q = p then .zombie else (s.afterExit p q).state := by
    intro q
    rw [exit_proc]
    grind
  have changes : ∀ q, (s.afterExit p q).state = (s.proc q).state ∨
      (s.proc q).state = .sleeping ∧ (s.afterExit p q).state = .runnable := by
    intro q
    obtain ⟨state, change, after⟩ := afterExit_eq s p q
    grind
  have waits : ∀ q, ((s.exit c k p).proc q).Waits → q ≠ p ∧ (s.proc q).Waits ∧
      ((s.exit c k p).proc q).chan = (s.proc q).chan ∧ (s.afterExit p q).state = .sleeping := by
    intro q waits
    obtain ⟨state, change, after⟩ := afterExit_eq s p q
    simp only [exit_proc, Entry.Waits] at waits ⊢
    grind
  exact {
    init := by
      have := h.init
      have := changes initproc
      rw [states]
      grind [ProcState.Alive]
    root := by
      have := h.root
      rw [parents]
      grind
    parent := fun q r => by
      grind [ProcState.Alive, cases Family]
    adopted := fun q => by
      have := h.adopted q
      have := changes q
      rw [parents, states]
      grind [ProcState.Alive]
    unused := fun q => by
      have := h.unused q
      have := changes q
      rw [parents, states]
      grind
    unborn := fun q nq => by
      have := h.unborn q nq
      rw [points, parents]
      grind
    born := fun q nq => by
      have := h.born q nq
      rw [points, parents]
      grind
    embryo := fun r q => by
      have := h.embryo r q
      have := h.embryo p q
      have := changes q
      rw [points, parents, states]
      grind
    asleep := fun q asleep => by
      obtain ⟨_, before, chan, still⟩ := waits q asleep
      obtain ⟨own, none⟩ := h.asleep q before
      obtain ⟨notParent, notInit⟩ := afterExit_asleep still
      refine ⟨chan.trans own, fun z child zombie => ?_⟩
      rw [parents] at child
      rw [states] at zombie
      have := changes z
      have := h.parent p p
      by_cases itself : z = p
      · -- The process itself is a zombie now, and its parent has been woken.
        subst itself
        grind
      · by_cases passed : (s.proc z).parent = some p
        · have : s.HasZombie p (finRange nProc) := ⟨z, mem_finRange z, passed, by grind⟩
          grind
        · have := none z
          grind }

theorem step (placed : Placed s) (forking : Forking s) (moves : Moves s c action t) : Family t := by
  cases moves.effect placed forking with
  | tame counts each flags asleep => exact h.tame each asleep
  | fork p np point e acts running other forks after => exact h.fork forking running forks after
  | exit k p acts exits running point other moves =>
    exact moves ▸ h.exit other (by simp [ProcState.Alive, running]) point
  | freed p z acts waits turn child zombie gone each asleep =>
    exact h.free forking zombie (by simp [gone]) (fun q other => (each q other).1) asleep

end Family

/-! ## Pids -/

/-- The pid of the process with a number: an `int` that counts from 1. -/
def pidOf (serial : Nat) : Int := (serial + 1 : Int).bmod (2 ^ 32)

theorem incr_pidOf (n : Nat) : incr (pidOf n) = pidOf (n + 1) := by
  unfold incr pidOf
  rw [Int.bmod_def, Int.bmod_def, Int.bmod_def]
  grind

theorem pidOf_inj {m n : Nat} (small : m < 2 ^ 32) (smaller : n < 2 ^ 32)
    (same : pidOf m = pidOf n) : m = n := by
  unfold pidOf at same
  rw [Int.bmod_def, Int.bmod_def] at same
  grind

/-- Pids follow the numbers of the processes, and no number is used or returned twice. -/
structure Numbered (s : State) : Prop where
  next : s.nextpid = pidOf (s.forks + 1)
  pid : ∀ q, (s.proc q).state ≠ .unused →
    (s.proc q).pid = pidOf (s.proc q).serial ∧ (s.proc q).serial ≤ s.forks
  distinct : ∀ q r, (s.proc q).state ≠ .unused → (s.proc r).state ≠ .unused →
    (s.proc q).serial = (s.proc r).serial → q = r
  gone : ∀ r ∈ s.reaped, r.pid = pidOf r.serial ∧ r.serial ≤ s.forks ∧
    ∀ q, (s.proc q).state ≠ .unused → (s.proc q).serial ≠ r.serial
  once : (s.reaped.map Reaped.serial).Nodup

namespace Numbered

variable {s t : State} {c : Nat} {k p : Slot} (h : Numbered s)

include h

/-- Steps other than `allocproc` give no pids. -/
theorem entries (counts : t.counts = s.counts)
    (kept : ∀ q, (t.proc q).state ≠ .unused → (s.proc q).state ≠ .unused ∧
      (t.proc q).pid = (s.proc q).pid ∧ (t.proc q).serial = (s.proc q).serial) : Numbered t := by
  obtain ⟨next, forks, reaped⟩ : t.nextpid = s.nextpid ∧ t.forks = s.forks ∧
      t.reaped = s.reaped := by
    simpa [State.counts] using counts
  exact {
    next := by rw [next, forks, h.next]
    pid := fun q used => by
      have := h.pid q
      have := kept q used
      grind
    distinct := fun q r usedQ usedR => by
      have := h.distinct q r
      have := kept q usedQ
      have := kept r usedR
      grind
    gone := fun r member => by
      have := h.gone r (reaped ▸ member)
      grind
    once := reaped ▸ h.once }

/-- `allocproc` gives the next number to an unused slot. -/
theorem take (np : Slot) (reaped : t.reaped = s.reaped) (next : t.nextpid = incr s.nextpid)
    (forks : t.forks = s.forks + 1)
    (new : (t.proc np).pid = s.nextpid ∧ (t.proc np).serial = s.forks + 1)
    (old : ∀ q, q ≠ np → (t.proc q).state = (s.proc q).state ∧
      (t.proc q).pid = (s.proc q).pid ∧ (t.proc q).serial = (s.proc q).serial) : Numbered t where
  next := by rw [next, h.next, incr_pidOf, forks]
  pid q used := by
    have := h.pid q
    have := h.next
    grind
  distinct q r := by
    have := h.distinct q r
    have := h.pid q
    have := h.pid r
    grind
  gone r member := by
    grind [cases Numbered]
  once := reaped ▸ h.once

/-- `wait` returns the number of a child that is no longer in the table. -/
theorem free {z : Slot} (zombie : (s.proc z).state = .zombie) (next : t.nextpid = s.nextpid)
    (forks : t.forks = s.forks)
    (reaped : t.reaped = ⟨p, z, (s.proc z).pid, (s.proc z).serial⟩ :: s.reaped)
    (kept : ∀ q, (t.proc q).state ≠ .unused → q ≠ z ∧ (s.proc q).state ≠ .unused ∧
      (t.proc q).pid = (s.proc q).pid ∧ (t.proc q).serial = (s.proc q).serial) : Numbered t where
  next := by rw [next, forks, h.next]
  pid q used := by
    have := h.pid q
    have := kept q used
    grind
  distinct q r usedQ usedR := by
    have := h.distinct q r
    have := kept q usedQ
    have := kept r usedR
    grind
  gone r member := by
    rw [reaped] at member
    rw [forks]
    rcases mem_cons.mp member with rfl | member
    · obtain ⟨pid, small⟩ := h.pid z (by simp [zombie])
      refine ⟨pid, small, fun q used => ?_⟩
      have := h.distinct q z
      have := kept q used
      grind
    · obtain ⟨pid, small, fresh⟩ := h.gone r member
      refine ⟨pid, small, fun q used => ?_⟩
      have := fresh q
      have := kept q used
      grind
  once := by
    rw [reaped]
    refine nodup_cons.mpr ⟨fun member => ?_, h.once⟩
    obtain ⟨r, old, same⟩ := mem_map.mp member
    exact (h.gone r old).2.2 z (by simp [zombie]) same.symm

theorem step (placed : Placed s) (forking : Forking s) {action : Action}
    (moves : Moves s c action t) : Numbered t := by
  cases moves.effect placed forking with
  | tame counts each =>
    refine h.entries counts fun q => ?_
    grind [Stays, ProcState.Alive, cases Entry.Tame]
  | fork p np point e acts running other forks after counts =>
    have embryo := forking.embryo p np
    cases forks with
    | taken here unused =>
      refine h.take np (congrArg (·.2.2) counts) (congrArg (·.1) counts)
        (congrArg (·.2.1) counts) ?_ fun q ne => ?_ <;> rw [after] <;> grind
    | stack here | space here | published here | dropped ok fails here =>
      refine h.entries ?_ fun q => ?_
      · rw [counts, if_neg (by grind)]
      · rw [after]
        grind [Point.child]
  | exit k p acts exits running point other moves =>
    subst moves
    refine h.entries (by rw [exit_eq]; rfl) fun q => ?_
    obtain ⟨state, change, after⟩ := afterExit_eq s p q
    rw [exit_proc]
    grind
  | freed p z acts waits turn child zombie gone each asleep counts =>
    refine h.free zombie (congrArg (·.1) counts) (congrArg (·.2.1) counts)
      (congrArg (·.2.2) counts) fun q used => ?_
    have := each q
    grind [Stays, ProcState.Alive, cases Entry.Tame]

end Numbered

/-! ## Every run -/

theorem family_boot : Family boot where
  init := by simp [boot, ProcState.Alive]
  root := by simp [boot, Entry.unused]
  parent q p child := by
    unfold boot at child
    grind [Entry.unused]
  adopted q other used := by
    unfold boot at used
    grind [Entry.unused]
  unused q _ := by
    unfold boot
    grind [Entry.unused]
  unborn p np _ := by
    unfold boot
    grind [Entry.unused]
  born p np point := by
    unfold boot at point
    grind [Entry.unused]
  embryo p q embryo := by
    unfold boot at embryo
    grind [Entry.unused]
  asleep p waits := by
    unfold boot at waits
    grind [Entry.unused, Entry.Waits]

theorem numbered_boot : Numbered boot where
  next := by decide
  pid := by
    have first : pidOf 0 = 1 := by decide
    intro q
    simp only [boot, Entry.unused]
    grind
  distinct q r usedQ usedR := by
    unfold boot at usedQ usedR
    grind [Entry.unused]
  gone := by simp [boot]
  once := by simp [boot]

/-- In every state reached, parents, children and pids are in order. -/
theorem family_of_reach {allowed : State → Nat × Action → Prop} {s : State}
    (reached : Lib.Reach procStep allowed boot s) : Family s ∧ Numbered s := by
  have all : (Placed s ∧ Forking s) ∧ Family s ∧ Numbered s := by
    refine reached.invariant (fun s => (Placed s ∧ Forking s) ∧ Family s ∧ Numbered s)
      ⟨⟨placed_boot, forking_boot⟩, family_boot, numbered_boot⟩ ?_
    rintro s ⟨c, action⟩ later ⟨⟨placed, forking⟩, family, numbered⟩ _ moves
    have moves := procStep_moves moves
    exact ⟨⟨placed.step forking moves, forking.step placed moves⟩,
      family.step placed forking moves, numbered.step placed forking moves⟩
  exact all.2

/-- No child is lost. Whenever `ptable.lock` is free, every process but init has a parent that
has not exited, pids are distinct and nobody sleeps in `wait` over an exited child. A pid is
returned by `wait` at most once, and to the parent the child has at that time. -/
theorem no_lost_children {s : State} (reached : Lib.Reach procStep (fun _ _ => True) boot s)
    (few : s.forks < 2 ^ 31) :
    (s.lock = none →
      (∀ q, q ≠ initproc →
        (s.proc q).state ∈ [ProcState.sleeping, .runnable, .running, .zombie] →
        ∃ p, (s.proc q).parent = some p ∧ (s.proc p).state ≠ .unused ∧
          (s.proc p).state ≠ .zombie) ∧
      (∀ q r, (s.proc q).state ≠ .unused → (s.proc r).state ≠ .unused →
        (s.proc q).pid = (s.proc r).pid → q = r) ∧
      ∀ p q, (s.proc p).Waits → (s.proc q).parent = some p → (s.proc q).state ≠ .zombie) ∧
    (s.reaped.map Reaped.pid).Nodup ∧
    ∀ event later, procStep s event = some later →
      later.reaped = s.reaped ∨ ∃ r, Reaps s later event.1 r := by
  obtain ⟨placed, forking⟩ := placed_of_reach reached
  obtain ⟨family, numbered⟩ := family_of_reach reached
  refine ⟨fun _ => ⟨fun q other state => ?_, fun q r usedQ usedR same => ?_,
    fun p q waits => (family.asleep p waits).2 q⟩, ?_, ?_⟩
  · obtain ⟨p, parent⟩ := Option.ne_none_iff_exists'.mp
      (family.adopted q other (by grind) (by grind))
    have alive := (family.parent q p parent).2
    exact ⟨p, parent, alive.1, alive.2.2⟩
  · obtain ⟨pidQ, smallQ⟩ := numbered.pid q usedQ
    obtain ⟨pidR, smallR⟩ := numbered.pid r usedR
    exact numbered.distinct q r usedQ usedR
      (pidOf_inj (by omega) (by omega) (pidQ.symm.trans (same.trans pidR)))
  · -- Equal pids belong to equal numbers, and no number is returned twice.
    have pids : s.reaped.map Reaped.pid = (s.reaped.map Reaped.serial).map pidOf := by
      rw [map_map]
      refine map_congr_left fun r member => ?_
      rw [Function.comp_apply, (numbered.gone r member).1]
    rw [pids]
    refine numbered.once.map_on fun m inM n inN same => ?_
    obtain ⟨r, member, rfl⟩ := mem_map.mp inM
    obtain ⟨r', member', rfl⟩ := mem_map.mp inN
    have := (numbered.gone r member).2.1
    have := (numbered.gone r' member').2.1
    exact pidOf_inj (by omega) (by omega) same
  · rintro ⟨c, action⟩ later moves
    obtain same | ⟨r, _, reaps, _⟩ := (procStep_moves moves).reaps placed forking
    · exact .inl same
    · exact .inr ⟨r, reaps⟩

/-- Init forks and waits; its child runs on the same CPU and exits. -/
def waitForChild : List (Nat × Action) :=
  [(0, .acquire), (0, .look), (0, .switch), (0, .resume), (0, .fork), (0, .kalloc true),
    (0, .copyuvm true), (0, .publish), (0, .wait), (0, .clear), (0, .look), (0, .switch),
    (0, .resume), (0, .exit), (0, .clear)] ++ replicate 63 (0, .look)

/-- The child has exited, and the parent it still has is alive. -/
theorem no_lost_children_wait : ∃ s : State, s.lock = none ∧ s.forks = 1 ∧
    (s.proc firstChild).state = .zombie ∧ ∃ p, (s.proc firstChild).parent = some p ∧
      (s.proc p).state ≠ .unused ∧ (s.proc p).state ≠ .zombie := by
  obtain ⟨s, reached, free, forks, zombie⟩ : ∃ s, Lib.Reach procStep (fun _ _ => True) boot s ∧
      s.lock = none ∧ s.forks = 1 ∧ (s.proc firstChild).state = .zombie :=
    Lib.exists_reach waitForChild (by decide +kernel)
  exact ⟨s, free, forks, zombie, ((no_lost_children reached (forks ▸ by decide)).1 free).1
    firstChild (by decide) (by simp [zombie])⟩

end Xv6.Proc
