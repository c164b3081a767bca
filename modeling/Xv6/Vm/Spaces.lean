import Xv6.Vm.Stack

/-!
# Address spaces over runs

Sequences of `exec`, `fork` and `growproc` by any processes, with `kalloc` refused at any point.
Between calls every live process has exactly the pages below its size, so that the loops of the
calls, each with its own rounding, never disagree about a page. Runs are followed up to a panic, or
to an `exec` with an argument of two pages or more for which `copyout` goes through a null pointer
(`Sys.exec_settled`); shorter arguments do not lead there.
-/

namespace Xv6.Vm

open Function Lib
open Act (Ok ok_bind ok_zoom)

/-! ### Calls -/

namespace Sys

/-- Code of the kernel that does not touch registers. -/
def onVm {α : Type} (act : SysM α) : Act Sys Panic α :=
  Act.zoom Sys.vm (fun s vm => { s with vm := vm }) act

variable (layout : Layout)

/-- `fork`. -/
def fork (p : Nat) : Act Sys Panic Unit := do
  match ← onVm (Vm.fork layout p) with
  | none => return
  | some np => modify fun s => { s with
      tf := update s.tf np (s.tf p)
      name := update s.name np (s.name p) }

end Sys

/-- A call that changes address spaces. -/
inductive SpaceCall where
  | exec (file : Option Reader) (path : List UInt8) (argv : List (List UInt8))
  | fork
  | growproc (n : Int)

/-- A call of a process, and which calls of `kalloc` in it return 0 whatever is free. -/
structure SpaceEvent where
  proc : Nat
  call : SpaceCall
  refused : List Bool

namespace Sys

/-- The code of a call. -/
def perform (layout : Layout) (p : Nat) : SpaceCall → Act Sys Panic Unit
  | .exec file path argv => do let _ ← exec layout (kernel p file) path argv
  | .fork => fork layout p
  | .growproc n => do let _ ← onVm (growproc layout p n)

/-- The state before a call, with what `kalloc` will refuse. -/
def refuse (s : Sys) (refused : List Bool) : Sys :=
  s.withAlloc { s.vm.alloc with refused := refused }

/-- A process that can make a call. -/
def Enabled (s : Sys) (e : SpaceEvent) : Prop := e.proc < nProc ∧ (s.vm.proc e.proc).state = .live

instance (s : Sys) (e : SpaceEvent) : Decidable (s.Enabled e) := inferInstanceAs (Decidable (_ ∧ _))

/-- One call; no step is made where the kernel panics or reads through a null pointer. -/
def step (layout : Layout) (s : Sys) (e : SpaceEvent) : Option Sys :=
  if s.Enabled e then
    match perform layout e.proc e.call (s.refuse e.refused) with
    | .ok (_, later) => some later
    | .error _ => none
  else none

end Sys

/-- `growproc` is called with an `int`, and some memory is left. -/
def SomeLeft (s : Sys) (e : SpaceEvent) : Prop :=
  match e.call with
  | .growproc n => -2 ^ 31 ≤ n ∧ n < 2 ^ 31 ∧ 0 < (s.vm.proc e.proc).sz + n
  | _ => True

instance (s : Sys) (e : SpaceEvent) : Decidable (SomeLeft s e) := by
  unfold SomeLeft
  split
  · infer_instance
  · infer_instance

/-! ### The invariant -/

/-- The pages below a size, rounded up, are the ones mapped for a process. -/
def Exactly (d : PageDir) (sz : Nat) : Prop :=
  ∀ v < userPages, (d.entry v).isSome ↔ v * pgSize < pgroundup sz

/-- A live process has exactly the pages below its size. -/
def Proc.Exact (q : Proc) : Prop :=
  q.state = .live → ∃ d, q.pgdir = some d ∧ Exactly d q.sz

/-- Pages are in one place each, and every live process has an address space. -/
structure Settled (layout : Layout) (s : State) : Prop where
  inv : Inv (handedPages layout) s
  space : ∀ p, (s.proc p).state = .live → ∃ d, (s.proc p).pgdir = some d

/-- Moreover every live process has exactly the pages below its size. -/
structure Spaces (layout : Layout) (s : State) : Prop extends Settled layout s where
  exact : ∀ p, (s.proc p).Exact

variable {layout : Layout} {s t first : State} {p np ncpu : Nat} {d : PageDir} {e : SpaceEvent}
  {refused : List Bool} {n : Int}

/-- Which calls of `kalloc` are refused does not matter. -/
theorem Settled.refuse (settled : Settled layout s) (refused : List Bool) :
    Settled layout { s with alloc := { s.alloc with refused := refused } } :=
  ⟨settled.inv.alloc rfl, settled.space⟩

/-- One process has changed. -/
theorem Settled.of_others {new : Proc} (settled : Settled layout s)
    (inv : Inv (handedPages layout) t) (others : ∀ q, q ≠ p → t.proc q = s.proc q)
    (entry : t.proc p = new) (space : new.pgdir = some d) : Settled layout t where
  inv := inv
  space q live := by
    by_cases same : q = p
    · exact ⟨d, by rw [same, entry, space]⟩
    · rw [others q same] at live ⊢
      exact settled.space q live

namespace Spaces

theorem refuse (spaces : Spaces layout s) (refused : List Bool) :
    Spaces layout { s with alloc := { s.alloc with refused := refused } } :=
  ⟨spaces.toSettled.refuse refused, spaces.exact⟩

/-- The address space of a live process. -/
theorem process (fit : layout.Fit) (spaces : Spaces layout s) (inside : p < nProc)
    (live : (s.proc p).state = .live) :
    ∃ d, (s.proc p).pgdir = some d ∧ Process layout d s.alloc (s.proc p).sz := by
  obtain ⟨d, space, exact⟩ := spaces.exact p live
  exact ⟨d, space, spaces.inv.process fit.kernel fit.low fit.high inside space exact⟩

end Spaces

/-! ### `growproc` -/

/-- `growproc` with any argument loses no page, also where it frees all of them. -/
theorem growproc_settled (settled : Settled layout s) (inside : p < nProc)
    (live : (s.proc p).state = .live) :
    Safe (growproc layout p n) (fun _ t => Settled layout t ∧ ∀ q, q ≠ p → t.proc q = s.proc q)
      s := by
  obtain ⟨d, space⟩ := settled.space p live
  refine (growproc_ok settled.inv inside live space).mono fun r t result => ?_
  obtain ⟨inv, others, d', sz, entry⟩ := result
  exact ⟨settled.of_others inv others entry rfl, others⟩

/-- `growproc` that leaves some memory returns, and the process has exactly the pages below its
size. -/
theorem growproc_spaces (fit : layout.Fit) (spaces : Spaces layout s) (inside : p < nProc)
    (live : (s.proc p).state = .live) (high : n < 2 ^ 31) (left : 0 < (s.proc p).sz + n) :
    Returns (growproc layout p n) (fun _ t => Spaces layout t) s := by
  obtain ⟨d, space, process⟩ := spaces.process fit inside live
  have all : AllOrNothing layout p n d s := by
    rcases Int.lt_trichotomy n 0 with negative | rfl | positive
    · exact growproc_shrink space process negative left
    · exact growproc_zero space process
    · exact growproc_grow space process positive high
  refine (Act.Ok.and all (growproc_settled spaces.toSettled inside live)).mono
    fun r t result => ?_
  obtain ⟨⟨d', space', promised⟩, settled, others⟩ := result
  refine ⟨settled, fun q => ?_⟩
  by_cases same : q = p
  · subst same
    refine fun _ => ⟨d', space', ?_⟩
    rcases promised with ⟨-, resized⟩ | ⟨-, same⟩
    · exact resized.exact
    · intro v below
      rw [same.entry v below, process.exact v below, same.size]
  · rw [others q same]
    exact spaces.exact q

/-! ### `fork` -/

/-- The panics about address spaces that do not have the pages they should have. -/
def Panic.OfSpace : Panic → Prop
  | .remap | .copyuvmPte | .copyuvmPresent | .loaduvmAddress | .loaduvmPresent | .clearpteu => True
  | _ => False

/-- The child has a copy of the parent's memory: the same pages with the same flags and bytes. -/
def Twin (s : State) (p : Nat) (t : State) (np : Nat) : Prop :=
  ∃ d d', (s.proc p).pgdir = some d ∧ (t.proc np).pgdir = some d' ∧
    (t.proc np).sz = (s.proc p).sz ∧ ∀ v < userPages, ∀ pte, d.entry v = some pte →
      ∃ q, d'.entry v = some ⟨q, pte.perm⟩ ∧ t.alloc.mem q = s.alloc.mem pte.page

/-- `fork`: only an entry that was not in use changes, and a child in it has what `copyuvm` made of
the parent's address space. -/
theorem Sys.fork_settled {s : Sys} {panics : Panic → Prop} {src : PageDir}
    (made : PageDir → Alloc → Prop) (settled : Settled layout s.vm)
    (live : (s.vm.proc p).state = .live) (space : (s.vm.proc p).pgdir = some src)
    (kfree : panics .kfree) (filedup : panics .filedup)
    (copied : ∀ t, Inv (handedPages layout) t → t.alloc.mem = s.vm.alloc.mem →
      t.proc p = s.vm.proc p → Ok panics (copyuvm layout src (s.vm.proc p).sz)
        (fun r a => ∀ d, r = some d → made d a) t.alloc) :
    Ok panics (Sys.fork layout p) (fun _ t => Settled layout t.vm ∧
      ∀ q, t.vm.proc q = s.vm.proc q ∨ (t.vm.proc q).state = .unused ∨
        (t.vm.proc q).sz = (s.vm.proc p).sz ∧
        ∃ d, (t.vm.proc q).pgdir = some d ∧ made d t.vm.alloc) s := by
  rw [Sys.fork, ok_bind, Sys.onVm, ok_zoom]
  refine (fork_ok made settled.inv live space kfree filedup copied).mono fun r t forked => ?_
  obtain ⟨inv, fate⟩ := forked
  have settled' : Settled layout t := ⟨inv, fun q alive => by grind [cases Settled]⟩
  cases r with
  | none => exact ⟨settled', fate⟩
  | some np => exact ⟨settled', fate⟩

/-- `fork` keeps the invariant, and a child has a copy of the parent's memory. -/
theorem Sys.fork_spaces {s : Sys} (fit : layout.Fit) (spaces : Spaces layout s.vm)
    (inside : p < nProc) (live : (s.vm.proc p).state = .live) :
    Ok (fun panic => ¬ panic.OfSpace) (Sys.fork layout p) (fun _ t => Spaces layout t.vm ∧
      ∀ np, (s.vm.proc np).state ≠ .live → (t.vm.proc np).state = .live →
        Twin s.vm p t.vm np) s := by
  obtain ⟨src, space, exact⟩ := spaces.exact p live
  refine (Sys.fork_settled (fun d a => Exactly d (s.vm.proc p).sz ∧
    ∀ v < userPages, ∀ pte, src.entry v = some pte →
      ∃ q, d.entry v = some ⟨q, pte.perm⟩ ∧ a.mem q = s.vm.alloc.mem pte.page)
    spaces.toSettled live space not_false not_false fun t inv mem entry => ?_).mono
    fun _ t forked => ?_
  · have process := inv.process fit.kernel fit.low fit.high inside (by rw [entry]; exact space)
      (by rw [entry]; exact exact)
    rw [entry] at process
    refine ((copyuvm_image fit (Sys.pool_of_inv fit inv) process).weaken
      fun _ wrong => wrong.elim).mono fun r a copied d made => ?_
    obtain ⟨image, twin⟩ := copied.2 d made
    exact ⟨image.exact, mem ▸ twin⟩
  · obtain ⟨settled, fate⟩ := forked
    refine ⟨⟨settled, fun q => ?_⟩, fun q dead alive => ?_⟩
    · grind [cases Spaces, Proc.Exact]
    · grind [Twin]

/-! ### `exec` -/

/-- Memory that is as full as before. -/
theorem Settled.rest {s t : Sys} (settled : Settled layout s.vm) (rest : Sys.Rest s t)
    (free : t.vm.alloc.free = s.vm.alloc.free) :
    Settled layout t.vm ∧ t.vm.proc = s.vm.proc := by
  rw [rest]
  exact ⟨⟨settled.inv.alloc free, settled.space⟩, rfl⟩

/-- `exec` of any file with any arguments loses no page, and what it makes has exactly the pages
below its size; only with an argument of two pages or more can `copyout` go through a null
pointer. -/
theorem Sys.exec_settled {s : Sys} {file : Option Reader} {path : List UInt8}
    {argv : List (List UInt8)} (fit : layout.Fit) (settled : Settled layout s.vm)
    (inside : p < nProc) (live : (s.vm.proc p).state = .live) :
    Ok (fun panic => panic = .nullPte ∧ ∃ arg ∈ argv, 2 * pgSize ≤ arg.length)
      (exec layout (Sys.kernel p file) path argv)
      (fun _ t => Settled layout t.vm ∧ ∀ q, (s.vm.proc q).Exact → (t.vm.proc q).Exact) s := by
  obtain ⟨old, space⟩ := settled.space p live
  have ready := Sys.ready_of_inv fit settled.inv inside space
  have failed (t : Sys) (rest : Rest s t) (hold : Hold s.vm.alloc 0 t.vm.alloc) :
      Settled layout t.vm ∧ ∀ q, (s.vm.proc q).Exact → (t.vm.proc q).Exact := by
    obtain ⟨kept, same⟩ := settled.rest rest (by rw [← hold.pages, add_zero])
    exact ⟨kept, fun q exact => same ▸ exact⟩
  rw [exec, ok_bind]
  refine execLoad_wp (Sys.lawful s p file) fit ready.pool (.refl s) failed ?_
  intro elf sz d t rest stacked
  refine execArgs_wp (Sys.lawful s p file) ready.pool rest
    (((pushArgs_long ready.pool stacked).weaken fun _ ended =>
      ⟨ended.1, ended.2.imp fun arg found => ⟨found.1, stacked.room.trans found.2⟩⟩).mono
        fun r a image => ⟨image, trivial⟩)
    (fun _ u rest' _ hold => failed u rest' hold) fun sp u rest' image _ => ?_
  refine Sys.commit_ok ready rest' image fun a pages _ => ?_
  have sound := (settled.inv.books.sound p).setSpace live image.kernel image.small
  have moved : a.free + ({ s.vm.proc p with pgdir := some d, sz := sz } : Proc).pages =
      s.vm.alloc.free + (s.vm.proc p).pages := by
    rw [Proc.pages, Proc.pages, space]
    change a.free + (_ + d.pages) = _ + (_ + old.pages)
    grind
  have inv := settled.inv.update inside moved sound
  have same : ((u.withImage p ⟨d, sz, elf.entry, sp, progName path⟩).withAlloc a).vm =
      { s.vm with alloc := a }.setProc p { s.vm.proc p with pgdir := some d, sz := sz } := by
    rw [rest']
    rfl
  rw [same]
  refine ⟨settled.of_others inv (fun q other => update_of_ne other _ _) (update_self _ _ _) rfl,
    fun q exact => ?_⟩
  by_cases here : q = p
  · subst here
    simp only [State.setProc, update_self]
    exact fun _ => ⟨d, rfl, image.exact⟩
  · simpa only [State.setProc, update_of_ne here] using exact

/-! ### Runs -/

/-- The first process has exactly its page. -/
theorem start_spaces (booted : start layout ncpu refused = some first) : Spaces layout first := by
  obtain ⟨inv, procs⟩ := start_ok booted
  have exact (q : Nat) : (first.proc q).Exact := fun live => by
    obtain unused | ⟨size, d, space, one⟩ := procs q
    · exact absurd (unused.symm.trans live) (by simp)
    · refine ⟨d, space, fun v below => (one v below).trans ?_⟩
      rw [size]
      unfold pgroundup pgSize
      omega
  exact ⟨⟨inv, fun q live => (exact q live).imp fun _ => And.left⟩, exact⟩

/-- What one call does: no panic about address spaces, the invariant, and a copy for a child. -/
theorem Sys.perform_spaces {s : Sys} (fit : layout.Fit) (spaces : Spaces layout s.vm)
    (enabled : s.Enabled e) (left : SomeLeft s e) :
    Ok (fun panic => ¬ panic.OfSpace) (Sys.perform layout e.proc e.call) (fun _ t =>
      Spaces layout t.vm ∧ (e.call = .fork → ∀ np, (s.vm.proc np).state ≠ .live →
        (t.vm.proc np).state = .live → Twin s.vm e.proc t.vm np)) s := by
  obtain ⟨inside, live⟩ := enabled
  cases call : e.call with
  | exec file path argv =>
    rw [perform, ok_bind]
    refine ((Sys.exec_settled fit spaces.toSettled inside live).weaken ?_).mono fun _ t kept =>
      ⟨⟨kept.1, fun q => kept.2 q (spaces.exact q)⟩, fun wrong => absurd wrong (by simp)⟩
    rintro _ ⟨rfl, -⟩
    exact not_false
  | fork =>
    rw [perform]
    exact (Sys.fork_spaces fit spaces inside live).mono fun _ t kept => ⟨kept.1, fun _ => kept.2⟩
  | growproc n =>
    rw [SomeLeft, call] at left
    obtain ⟨-, high, some⟩ := left
    rw [perform, ok_bind, onVm, ok_zoom]
    refine ((growproc_spaces fit spaces inside live high some).weaken
      fun _ wrong => wrong.elim).mono fun _ t kept => ⟨kept, fun wrong => absurd wrong (by simp)⟩

theorem Sys.step_spaces {s t : Sys} (fit : layout.Fit) (spaces : Spaces layout s.vm)
    (left : SomeLeft s e) (moves : Sys.step layout s e = some t) :
    Spaces layout t.vm ∧ (e.call = .fork → ∀ np, (s.vm.proc np).state ≠ .live →
      (t.vm.proc np).state = .live → Twin s.vm e.proc t.vm np) := by
  rw [Sys.step] at moves
  split at moves
  · rename_i enabled
    have done : Ok _ _ _ (s.refuse e.refused) :=
      Sys.perform_spaces fit (spaces.refuse e.refused) enabled left
    unfold Ok at done
    split at moves
    · rename_i later ran
      rw [ran] at done
      cases moves
      exact done
    · contradiction
  · contradiction

/-- Every live process has exactly the pages below its size; no call panics about an address space,
and a child that `fork` makes has the pages, flags and bytes that its parent had. -/
def SpacesExact (layout : Layout) (s : Sys) : Prop :=
  (∀ p, (s.vm.proc p).state = .live → ∃ d, (s.vm.proc p).pgdir = some d ∧
    ∀ v < userPages, (d.entry v).isSome ↔ v * pgSize < pgroundup (s.vm.proc p).sz) ∧
  ∀ e, s.Enabled e → SomeLeft s e →
    (∀ panic, Sys.perform layout e.proc e.call (s.refuse e.refused) = .error panic →
      ¬ panic.OfSpace) ∧
    ∀ t, Sys.step layout s e = some t → e.call = .fork → ∀ np, (s.vm.proc np).state ≠ .live →
      (t.vm.proc np).state = .live → Twin s.vm e.proc t.vm np

/-- The user address space is exact in every state that calls lead to from boot on. -/
theorem address_spaces_exact {ncpu : Nat} {refused : List Bool} {first : State}
    {tf : Nat → Trapframe} {name : Nat → List UInt8} {s : Sys} (fit : layout.Fit)
    (booted : start layout ncpu refused = some first)
    (reached : Reach (Sys.step layout) SomeLeft ⟨first, tf, name⟩ s) : SpacesExact layout s := by
  have spaces : Spaces layout s.vm :=
    reached.invariant (fun s => Spaces layout s.vm) (start_spaces booted)
      fun _ _ _ kept left moves => (Sys.step_spaces fit kept left moves).1
  refine ⟨spaces.exact, fun e enabled left => ⟨fun panic ended => ?_, fun t moves => ?_⟩⟩
  · have done : Ok _ _ _ (s.refuse e.refused) :=
      Sys.perform_spaces fit (spaces.refuse e.refused) enabled left
    rw [Ok, ended] at done
    exact done
  · exact (Sys.step_spaces fit spaces left moves).2

/-- The first process executes a program and forks, and the child grows and shrinks. -/
def execForkGrow : List SpaceEvent :=
  [⟨0, .exec (some (.ofFile tinyProgram)) [105, 110, 105, 116] [[115, 104]], []⟩, ⟨0, .fork, []⟩,
    ⟨1, .growproc 5000, []⟩, ⟨1, .growproc (-900), []⟩, ⟨0, .fork, [false, true]⟩]

theorem address_spaces_exact_execForkGrow :
    ∃ first s, start tinyLayout 1 [] = some first ∧
      Reach (Sys.step tinyLayout) SomeLeft (.fresh first) s ∧ SpacesExact tinyLayout s ∧
      (s.vm.proc 0).sz = 12288 ∧ (s.vm.proc 1).state = .live ∧ (s.vm.proc 1).sz = 16388 := by
  have executed : ((start tinyLayout 1 []).bind fun first =>
      runChecked (Sys.step tinyLayout) SomeLeft execForkGrow (.fresh first)).map (fun s =>
        decide ((s.vm.proc 0).sz = 12288 ∧ (s.vm.proc 1).state = .live ∧
          (s.vm.proc 1).sz = 16388)) = some true := by
    decide +kernel
  obtain ⟨s, run, holds⟩ := Option.map_eq_some_iff.mp executed
  obtain ⟨first, booted, run⟩ := Option.bind_eq_some_iff.mp run
  have reached := reach_of_runChecked _ .start run
  exact ⟨first, s, booted, reached, address_spaces_exact tinyLayout_fit booted reached,
    of_decide_eq_true holds⟩

/-- What one call does to the pages, whatever its arguments. -/
theorem Sys.perform_settled {s : Sys} (fit : layout.Fit) (settled : Settled layout s.vm)
    (enabled : s.Enabled e) :
    Safe (Sys.perform layout e.proc e.call) (fun _ t => Settled layout t.vm) s := by
  obtain ⟨inside, live⟩ := enabled
  cases e.call with
  | exec file path argv =>
    rw [perform, Safe, ok_bind]
    exact ((Sys.exec_settled fit settled inside live).weaken fun _ _ => trivial).mono
      fun _ t kept => kept.1
  | fork =>
    obtain ⟨src, space⟩ := settled.space _ live
    rw [perform]
    exact (Sys.fork_settled (fun _ _ => True) settled live space trivial trivial
      fun _ _ _ _ => Act.ok_trivial.mono fun _ _ _ _ _ => trivial).mono fun _ t kept => kept.1
  | growproc n =>
    rw [perform, Safe, ok_bind, onVm, ok_zoom]
    exact (growproc_settled settled inside live).mono fun _ t kept => kept.1

/-- In every run of `exec`, `fork` and `growproc` calls, with any arguments and also where `kalloc`
fails, no page is lost or in two places: all places together hold the pages that `freerange` handed
out, each once. -/
theorem pages_conserved {tf : Nat → Trapframe} {name : Nat → List UInt8} {s : Sys}
    (fit : layout.Fit) (booted : start layout ncpu refused = some first)
    (reached : Reach (Sys.step layout) (fun _ _ => True) ⟨first, tf, name⟩ s) :
    census s.vm = handedPages layout ∧ (census s.vm).Nodup := by
  have settled : Settled layout s.vm := by
    refine reached.invariant (fun s => Settled layout s.vm) (start_spaces booted).toSettled
      fun s e t kept _ moves => ?_
    rw [Sys.step] at moves
    split at moves
    · rename_i enabled
      have done : Ok _ _ _ (s.refuse e.refused) :=
        Sys.perform_settled fit (kept.refuse e.refused) enabled
      grind [Ok]
    · contradiction
  have pages := settled.inv.books.pages
  rw [add_zero] at pages
  exact ⟨pages, pages ▸ settled.inv.nodup⟩

/-- The child of the run above gives all its memory back. -/
theorem pages_conserved_execForkGrow :
    ∃ first s, start tinyLayout 1 [] = some first ∧
      Reach (Sys.step tinyLayout) (fun _ _ => True) (.fresh first) s ∧
      (s.vm.proc 1).state = .live ∧ ((s.vm.proc 1).pgdir.map fun d => d.entry 0) = some none ∧
      census s.vm = handedPages tinyLayout ∧ (census s.vm).Nodup := by
  have executed : ((start tinyLayout 1 []).bind fun first =>
      runChecked (Sys.step tinyLayout) (fun _ _ => True)
        (execForkGrow ++ [⟨1, .growproc (-16388), []⟩]) (.fresh first)).map (fun s =>
        decide ((s.vm.proc 1).state = .live ∧
          ((s.vm.proc 1).pgdir.map fun d => d.entry 0) = some none)) = some true := by
    decide +kernel
  obtain ⟨s, run, holds⟩ := Option.map_eq_some_iff.mp executed
  obtain ⟨first, booted, run⟩ := Option.bind_eq_some_iff.mp run
  have reached := reach_of_runChecked _ .start run
  obtain ⟨live, empty⟩ := of_decide_eq_true holds
  exact ⟨first, s, booted, reached, live, empty, pages_conserved tinyLayout_fit booted reached⟩

end Xv6.Vm
