import Xv6.Lib.Run
import Xv6.Vm.Calls
import Xv6.Vm.Pages

/-!
# Conservation of physical pages

The census of a state adds up the pages of every place that holds some: the free list, kernel
stacks, address spaces with their directories and page tables, and scheduler stacks. Pages also
pass through the hands of the code that moves them; `Books` balances the census and what is in hand
against the pages that `freerange` handed to the allocator. Each call keeps the balance with nothing
in hand, on failure paths too.
-/

namespace Xv6.Vm

open Function Lib Multiset
open Act (Ok ok_bind ok_forM ok_get ok_ite ok_modify ok_pure)

/-- The pages of a process. -/
def Proc.pages (p : Proc) : Multiset Page :=
  onePage p.kstack + spacePages p.pgdir

/-- The pages in all places. -/
def census (s : State) : Multiset Page :=
  s.alloc.free + spacePages s.kpgdir + s.schedStacks + tally nProc Proc.pages s.proc

/-- What holds of every entry of the process table. -/
structure Sound (p : Proc) : Prop where
  space : KernelOnly p.pgdir
  size : p.sz ≤ kernbase
  noStack : p.state = .unused → p.kstack = none
  noSpace : p.state = .unused ∨ p.state = .embryo → p.pgdir = none

/-- The pages in all places and in hand are those handed to the allocator. -/
structure Books (hand handed : Multiset Page) (s : State) : Prop where
  pages : census s + hand = handed
  kernel : KernelOnly s.kpgdir
  sound : ∀ p, Sound (s.proc p)

/-- The invariant between calls. -/
structure Inv (handed : Multiset Page) (s : State) : Prop where
  books : Books 0 handed s
  nodup : handed.Nodup

variable {layout : Layout} {s later : State} {a : Alloc} {p np : Nat} {new : Proc} {d : PageDir}
  {hand hand' handed : Multiset Page} {refused : List Bool} {n : Int}

/-- What a step of the allocator does to the whole state. -/
theorem ok_onAlloc {α : Type} {panics : Panic → Prop} {act : AllocM α} {post : α → State → Prop} :
    Ok panics (onAlloc act) post s ↔
      Ok panics act (fun value alloc => post value { s with alloc := alloc }) s.alloc := by
  unfold Ok onAlloc
  cases act s.alloc with
  | ok result => rfl
  | error panic => rfl

/-- Only files and descriptors have changed. -/
def Filed (s later : State) : Prop :=
  ∃ file ofile, later = { s with file := file, ofile := ofile }

namespace Books

/-- Allocating and freeing moves pages between the free list and the hand. -/
theorem alloc (books : Books hand handed s) (moved : a.free + hand' = s.alloc.free + hand) :
    Books hand' handed { s with alloc := a } where
  pages := by
    rw [← books.pages]
    unfold census
    dsimp only
    grind
  kernel := books.kernel
  sound := books.sound

/-- Allocating, freeing and assigning an entry of the process table. -/
theorem update (books : Books hand handed s) (inside : p < nProc)
    (moved : a.free + new.pages + hand' = s.alloc.free + (s.proc p).pages + hand)
    (sound : Sound new) : Books hand' handed ({ s with alloc := a }.setProc p new) where
  pages := by
    obtain ⟨rest, before, after⟩ := tally_split inside Proc.pages s.proc
    rw [← books.pages]
    unfold census State.setProc
    dsimp only
    rw [before, after]
    grind
  kernel := books.kernel
  sound q := by
    by_cases same : q = p
    · simpa only [same, State.setProc, update_self] using sound
    · simpa only [State.setProc, update_of_ne same] using books.sound q

/-- Copying descriptors moves no pages. -/
theorem filed (books : Books hand handed s) (filed : Filed s later) : Books hand handed later := by
  obtain ⟨file, ofile, rfl⟩ := filed
  exact ⟨books.pages, books.kernel, books.sound⟩

end Books

namespace Inv

/-- Allocating, freeing and assigning an entry of the process table. -/
theorem update (inv : Inv handed s) (inside : p < nProc)
    (moved : a.free + new.pages = s.alloc.free + (s.proc p).pages) (sound : Sound new) :
    Inv handed ({ s with alloc := a }.setProc p new) where
  books := inv.books.update inside (by rw [add_zero, add_zero, moved]) sound
  nodup := inv.nodup

/-- As many pages are free as before. -/
theorem alloc (inv : Inv handed s) (same : a.free = s.alloc.free) :
    Inv handed { s with alloc := a } :=
  ⟨inv.books.alloc (by rw [same]), inv.nodup⟩

end Inv

/-- A live process has another address space. -/
theorem Sound.setSpace {q : Proc} {sz : Nat} (sound : Sound q) (live : q.state = .live)
    (kernel : d.KernelOnly) (small : sz ≤ kernbase) :
    Sound { q with pgdir := some d, sz := sz } where
  space := .some kernel
  size := small
  noStack := sound.noStack
  noSpace vacant := by
    grind

/-! ### `fork` -/

section Fork

variable {panics : Panic → Prop}

theorem kfreePtr_ok {page : Option Page} (kfree : panics .kfree) :
    Ok panics (kfreePtr layout page) (fun _ later => later.free = a.free + onePage page) a := by
  cases page with
  | none => exact kfree
  | some q =>
    have only : Ok panics (Vm.kfree layout q) (fun _ _ => True) a := by
      rw [Vm.kfree, ok_ite]
      split
      · exact kfree
      · trivial
    exact (only.and (kfree_ok q)).mono fun _ _ both => both.2

/-- `allocproc` takes an entry that is not in use, and a page for its stack. -/
theorem allocproc_ok (inv : Inv handed s) :
    Returns allocproc (fun r t => Inv handed t ∧ t.alloc.mem = s.alloc.mem ∧
      (r = none → t.proc = s.proc) ∧
      ∀ np, r = some np → np < nProc ∧ (s.proc np).state = .unused ∧ ∃ kstack, t.proc =
        update s.proc np { s.proc np with state := .embryo, kstack := some kstack }) s := by
  rw [allocproc, Returns]
  simp only [ok_bind, ok_get]
  cases found : (List.range nProc).find? fun p => (s.proc p).state = .unused with
  | none => exact ⟨inv, rfl, fun _ => rfl, by simp⟩
  | some np =>
    have inside := List.mem_range.mp (List.mem_of_find?_eq_some found)
    have unused : (s.proc np).state = .unused := by simpa using List.find?_some found
    have sound := inv.books.sound np
    dsimp only
    rw [ok_bind]
    refine ok_onAlloc.mpr (kalloc_returns ⟨inv.alloc rfl, rfl, fun _ => rfl, by simp⟩
      fun kstack next list => ⟨inv.update inside ?_ ⟨sound.space, sound.size, by simp, fun _ =>
        sound.noSpace (.inl unused)⟩, rfl, by simp, ?_⟩)
    · rw [Proc.pages, Proc.pages, sound.noStack unused, Alloc.free, Alloc.free, list,
        ← cons_coe, ← singleton_add]
      simp only [onePage_some, onePage_none, zero_add]
      grind
    · rintro _ ⟨⟩
      exact ⟨inside, unused, kstack, rfl⟩

/-- The loop of `fork` over descriptors. -/
theorem dupAll_ok {ofile : Nat → Option Nat} (filedup : panics .filedup) :
    Ok panics ((List.range nOFile).forM fun fd =>
      match ofile fd with
      | none => pure ()
      | some f => do
        Vm.filedup f
        modify fun s => s.setFd np fd (some f)) (fun _ later => Filed s later) s := by
  refine ok_forM (fun _ now => Filed s now) ⟨_, _, rfl⟩ fun fd rest now filed => ?_
  obtain ⟨_, _, rfl⟩ := filed
  cases ofile fd with
  | none => exact ⟨_, _, rfl⟩
  | some f =>
    simp only [Vm.filedup, ok_bind, ok_get, ok_ite, Act.ok_throw, Act.ok_set,
      ok_modify]
    split
    · exact filedup
    · exact ⟨_, _, rfl⟩

/-- `fork`: only an entry that was not in use changes, and a child in it has what `copyuvm` made of
the parent's address space. -/
theorem fork_ok {src : PageDir} (made : PageDir → Alloc → Prop) (inv : Inv handed s)
    (live : (s.proc p).state = .live) (space : (s.proc p).pgdir = some src) (kfree : panics .kfree)
    (filedup : panics .filedup)
    (copied : ∀ t, Inv handed t → t.alloc.mem = s.alloc.mem → t.proc p = s.proc p →
      Ok panics (copyuvm layout src (s.proc p).sz)
        (fun r a => ∀ d, r = some d → made d a) t.alloc) :
    Ok panics (fork layout p) (fun _ t => Inv handed t ∧
      ∀ q, t.proc q = s.proc q ∨ (t.proc q).state = .unused ∨ (t.proc q).sz = (s.proc p).sz ∧
        ∃ d, (t.proc q).pgdir = some d ∧ made d t.alloc) s := by
  rw [fork, ok_bind]
  refine ((allocproc_ok inv).weaken fun _ wrong => wrong.elim).mono fun r t taken => ?_
  obtain ⟨inv', mem, none, some⟩ := taken
  cases r with
  | none => exact ⟨inv', fun q => .inl (by rw [none rfl])⟩
  | some np =>
    obtain ⟨inside, unused, kstack, procs⟩ := some np rfl
    have others : ∀ q, q ≠ np → t.proc q = s.proc q := fun q other => by
      rw [procs, update_of_ne other]
    have same : t.proc p = s.proc p := others p (by rintro rfl; simp [unused] at live)
    have child := inv'.books.sound np
    have noSpace : (t.proc np).pgdir = .none := child.noSpace (.inr (by rw [procs, update_self]))
    simp only [ok_bind, ok_get, same, space]
    refine ok_onAlloc.mpr (((copied t inv' mem same).and
      (copyuvm_ok (inv.books.sound p).size)).mono fun r a copy => ?_)
    obtain ⟨copy, kept, kernel⟩ := copy
    cases r with
    | none =>
      rw [spacePages_none, add_zero] at kept
      dsimp only
      rw [ok_bind]
      refine ok_onAlloc.mpr ((kfreePtr_ok kfree).mono fun _ a' freed => ?_)
      simp only [ok_bind, ok_modify, ok_pure]
      refine ⟨inv'.update inside ?_ ⟨child.space, child.size, fun _ => rfl, fun _ => noSpace⟩,
        fun q => ?_⟩
      · rw [freed, kept, Proc.pages, Proc.pages]
        change _ + (0 + _) = _
        grind
      · by_cases here : q = np
        · exact .inr (.inl (by simp only [here, State.setProc, update_self]))
        · exact .inl ((update_of_ne here _ _).trans (others q here))
    | some d =>
      simp only [ok_bind, ok_modify, ok_pure]
      refine (dupAll_ok filedup).mono fun _ u filed => ?_
      obtain ⟨file, ofile, rfl⟩ := filed
      have filed : Inv handed { t with file := file, ofile := ofile } :=
        ⟨inv'.books.filed ⟨_, _, rfl⟩, inv'.nodup⟩
      refine ⟨filed.update inside ?_ ⟨kernel, (inv'.books.sound p).size, by simp, by simp⟩,
        fun q => ?_⟩
      · rw [Proc.pages, Proc.pages, noSpace]
        change _ + (_ + d.pages) = _ + (_ + 0)
        rw [← kept, spacePages_some]
        grind
      · by_cases here : q = np
        · simp only [here, State.setProc, update_self]
          exact .inr (.inr ⟨congrArg Proc.sz same, d, rfl, copy d rfl⟩)
        · exact .inl ((update_of_ne here _ _).trans (others q here))

end Fork

/-! ### `sbrk` -/

/-- The sizes that `allocuvm` and `deallocuvm` return for a process. -/
theorem resize_ok {oldsz newsz : Nat} (kernel : d.KernelOnly) (small : oldsz ≤ kernbase) :
    Safe (if n > 0 then allocuvm layout d oldsz newsz else deallocuvm layout d oldsz newsz)
      (fun r later => later.free + r.2.pages = a.free + d.pages ∧ r.2.KernelOnly ∧
        r.1 ≤ kernbase) a := by
  split
  · exact (allocuvm_ok kernel).mono fun r later after => ⟨after.1, after.2.1, after.2.2 small⟩
  · exact (deallocuvm_ok small).mono fun r later after =>
      ⟨after.1, kernel.congr after.2.2.2, le_trans after.2.1 small⟩

/-- `growproc` changes the size and the address space of its process only. -/
theorem growproc_ok (inv : Inv handed s) (inside : p < nProc) (live : (s.proc p).state = .live)
    (space : (s.proc p).pgdir = some d) :
    Safe (growproc layout p n) (fun _ t => Inv handed t ∧ (∀ q, q ≠ p → t.proc q = s.proc q) ∧
      ∃ d sz, t.proc p = { s.proc p with pgdir := some d, sz := sz }) s := by
  have sound := inv.books.sound p
  rw [growproc]
  simp only [ok_bind, ok_get, space]
  rw [ok_ite]
  split
  · exact ⟨inv, fun _ _ => rfl, d, (s.proc p).sz, by rw [← space]⟩
  rw [ok_bind]
  refine ok_onAlloc.mpr ((resize_ok (sound.space d space) sound.size).mono fun r a resized => ?_)
  obtain ⟨sz, d'⟩ := r
  obtain ⟨kept, kernel, small⟩ := resized
  have moved (sz : Nat) : a.free + ({ s.proc p with pgdir := some d', sz := sz } : Proc).pages =
      s.alloc.free + (s.proc p).pages := by
    rw [Proc.pages, Proc.pages, space]
    change a.free + (_ + d'.pages) = _ + (_ + d.pages)
    grind
  simp only [ok_bind, ok_modify, ok_ite, ok_pure, State.setProc, update_self,
    update_idem]
  split
  · exact ⟨inv.update inside (moved _) (sound.setSpace live kernel sound.size),
      fun q other => update_of_ne other .., d', _, rfl⟩
  · exact ⟨inv.update inside (moved sz) (sound.setSpace live kernel small),
      fun q other => update_of_ne other .., d', sz, rfl⟩

/-! ### Boot -/

/-- The pages that `freerange` hands to the allocator. -/
def handedPages (layout : Layout) : List Page :=
  rangePages layout.kernelEnd kinitEnd ++ rangePages kinitEnd layout.phystop

theorem mem_rangePages {start stop q : Nat} (member : q ∈ rangePages start stop) :
    pgroundup start / pgSize ≤ q ∧ q < stop / pgSize := by
  rw [rangePages, List.mem_range'_1] at member
  omega

/-- No page is handed to the allocator twice. -/
theorem handedPages_nodup : (handedPages layout).Nodup := by
  refine List.nodup_append.mpr ⟨List.nodup_range', List.nodup_range', fun q first r second => ?_⟩
  have before := (mem_rangePages first).2
  have after := (mem_rangePages second).1
  have boundary : pgroundup kinitEnd / pgSize = kinitEnd / pgSize := by decide
  exact Nat.ne_of_lt (by omega)

theorem freerange_ok {start stop : Nat} :
    Safe (freerange layout start stop) (fun _ later =>
      later.free = a.free + (rangePages start stop : Multiset Page)) a := by
  rw [freerange]
  generalize rangePages start stop = pages
  refine (ok_forM (fun rest now =>
    now.free + (rest : Multiset Page) = a.free + pages) rfl fun q rest now inv => ?_).mono
    fun _ now all => (add_zero now.free).symm.trans all
  refine (kfree_ok q).mono fun _ later freed => ?_
  rw [freed, ← inv, ← cons_coe, ← singleton_add, add_assoc]

namespace Books

/-- The allocator is handed more pages. -/
theorem hand_over {more : Multiset Page} (books : Books hand handed s)
    (freed : a.free = s.alloc.free + more) : Books hand (handed + more) { s with alloc := a } where
  pages := by
    rw [← books.pages]
    unfold census
    dsimp only
    rw [freed]
    grind
  kernel := books.kernel
  sound := books.sound

/-- `kpgdir` is set. -/
theorem setKpgdir (books : Books d.pages handed s) (unset : s.kpgdir = none)
    (kernel : d.KernelOnly) : Books 0 handed { s with kpgdir := some d } where
  pages := by
    rw [← books.pages]
    unfold census
    dsimp only
    rw [unset, spacePages_none, spacePages_some, add_zero, add_zero]
    grind
  kernel := .some kernel
  sound := books.sound

/-- A CPU gets its scheduler stack. -/
theorem pushStack {q : Page} (books : Books {q} handed s) :
    Books 0 handed { s with schedStacks := q :: s.schedStacks } where
  pages := by
    rw [← books.pages]
    unfold census
    dsimp only
    rw [← cons_coe, ← singleton_add, add_zero]
    grind
  kernel := books.kernel
  sound := books.sound

end Books

/-- Before `main` there are no pages. -/
theorem reset_books (refused : List Bool) : Books 0 0 (reset refused) where
  pages := by
    have none : tally nProc Proc.pages (reset refused).proc = 0 := tally_eq_zero fun _ _ => rfl
    unfold census
    rw [none]
    rfl
  kernel := .none
  sound p := ⟨.none, Nat.zero_le _, fun _ => rfl, fun _ => rfl⟩

/-- `inituvm` maps the first page. -/
theorem inituvm_ok (kernel : d.KernelOnly) (none : ∀ v < userPages, d.entry v = none) :
    Safe (inituvm layout d) (fun d' later => later.free + d'.pages = a.free + d.pages ∧
      d'.KernelOnly ∧ ∀ v < userPages, (d'.entry v).isSome ↔ v = 0) a := by
  rw [inituvm, Safe, ok_ite]
  split
  · trivial
  rw [ok_bind]
  refine kalloc_ok.mono fun r taken given => ?_
  cases r with
  | none => trivial
  | some mem =>
    rw [onePage_some] at given
    dsimp only
    rw [ok_bind, ok_modify, ok_bind]
    refine (mappages_ok (Nat.zero_mod _) (by decide) fun _ => trivial).mono
      fun r later mapped => ?_
    obtain ⟨all, d'⟩ := r
    obtain ⟨-, moved, kernel', entries⟩ := mapped
    cases all with
    | false => trivial
    | true =>
      rw [if_pos rfl] at moved entries
      change later.free + d'.pages = taken.free + d.pages + {mem} at moved
      refine ⟨?_, kernel' kernel, fun v below => ?_⟩
      · change later.free + d'.pages = _
        rw [moved, ← given]
        grind
      · rw [entries, Nat.zero_div, update_apply]
        grind

/-- `userinit` makes a process with one page. -/
theorem userinit_ok (inv : Inv handed s) :
    Safe (userinit layout) (fun _ t => Inv handed t ∧ ∀ q, t.proc q = s.proc q ∨
      (t.proc q).sz = pgSize ∧ ∃ d, (t.proc q).pgdir = some d ∧
        ∀ v < userPages, (d.entry v).isSome ↔ v = 0) s := by
  rw [userinit, Safe, ok_bind]
  refine ((allocproc_ok inv).weaken fun _ wrong => wrong.elim).mono fun r t made => ?_
  obtain ⟨inv', -, -, entry⟩ := made
  cases r with
  | none => trivial
  | some p =>
    obtain ⟨inside, -, kstack, procs⟩ := entry p rfl
    have space : (t.proc p).pgdir = none :=
      (inv'.books.sound p).noSpace (.inr (by rw [procs, update_self]))
    dsimp only
    rw [ok_bind]
    refine ok_onAlloc.mpr (setupkvm_ok.mono fun r a₁ built => ?_)
    obtain ⟨kept, kernel, none⟩ := built
    cases r with
    | none => trivial
    | some d =>
      dsimp only
      rw [ok_bind]
      refine ok_onAlloc.mpr ((inituvm_ok (kernel d rfl) (none d rfl)).mono fun d' a₂ loaded => ?_)
      have small : pgSize ≤ kernbase := by decide
      refine ⟨inv'.update inside ?_ ⟨.some loaded.2.1, small, by simp, by simp⟩, fun q => ?_⟩
      · rw [Proc.pages, Proc.pages, space]
        change a₂.free + (_ + d'.pages) = _
        rw [spacePages_none, ← kept, spacePages_some]
        have := loaded.1
        grind
      · by_cases here : q = p
        · simp only [here, State.setProc, update_self]
          exact .inr ⟨trivial, d', rfl, loaded.2.2⟩
        · refine .inl ((update_of_ne here _ _).trans ?_)
          rw [procs, update_of_ne here]

/-- The loop of `startothers`. -/
theorem startothers_ok {turns : List Nat} (books : Books 0 handed s) :
    Safe (turns.forM fun _ => startOther) (fun _ later =>
      Books 0 handed later ∧ later.proc = s.proc) s := by
  refine ok_forM (fun _ now => Books 0 handed now ∧ now.proc = s.proc) ⟨books, rfl⟩
    fun _ _ now inv => ?_
  rw [startOther, ok_bind]
  refine ok_onAlloc.mpr (kalloc_ok.mono fun r a given => ?_)
  cases r with
  | none => trivial
  | some q => exact ⟨(inv.1.alloc (by rw [add_zero]; exact given)).pushStack, inv.2⟩

variable {ncpu : Nat} {first : State}

/-- When the first process starts it has one page, and there is no other. -/
theorem start_ok (booted : start layout ncpu refused = some first) :
    Inv (handedPages layout) first ∧ ∀ q, (first.proc q).state = .unused ∨
      (first.proc q).sz = pgSize ∧ ∃ d, (first.proc q).pgdir = some d ∧
        ∀ v < userPages, (d.entry v).isSome ↔ v = 0 := by
  have ok : Safe (boot layout ncpu) (fun _ t => Inv (handedPages layout) t ∧
      ∀ q, (t.proc q).state = .unused ∨ (t.proc q).sz = pgSize ∧
        ∃ d, (t.proc q).pgdir = some d ∧ ∀ v < userPages, (d.entry v).isSome ↔ v = 0)
      (reset refused) := by
    rw [boot, Safe, ok_bind]
    refine ok_onAlloc.mpr (freerange_ok.mono fun _ a freed => ?_)
    have kinit1 := (reset_books refused).hand_over freed
    rw [zero_add] at kinit1
    rw [ok_bind]
    refine ok_onAlloc.mpr (setupkvm_ok.mono fun r a' built => ?_)
    obtain ⟨kept, kernel, -⟩ := built
    cases r with
    | none => trivial
    | some kpgdir =>
      have built : Books kpgdir.pages _ _ := kinit1.alloc (by rw [add_zero]; exact kept)
      have kvmalloc := built.setKpgdir rfl (kernel kpgdir rfl)
      simp only [ok_bind, ok_modify]
      refine (startothers_ok kvmalloc).mono fun _ t started => ?_
      obtain ⟨books, proc⟩ := started
      refine ok_onAlloc.mpr (freerange_ok.mono fun _ a'' freed' => ?_)
      have kinit2 := books.hand_over freed'
      rw [coe_add] at kinit2
      refine (userinit_ok ⟨kinit2, Multiset.coe_nodup.mpr handedPages_nodup⟩).mono
        fun _ u made => ⟨made.1, fun q => (made.2 q).imp_left fun same => ?_⟩
      rw [same]
      exact congrArg (fun proc => (proc q).state) proc
  grind [Ok, start]

theorem start_inv (booted : start layout ncpu refused = some first) :
    Inv (handedPages layout) first :=
  (start_ok booted).1

/-- A machine with 32 pages for the allocator whose kernel maps two pages. -/
def smallLayout : Layout where
  kernelEnd := kinitEnd - 8 * pgSize
  phystop := kinitEnd + 24 * pgSize
  initcode := []
  kmap := [⟨kernbase, 0, 2 * pgSize, ⟨true, false⟩⟩]
  above k listed := by
    obtain rfl := List.mem_singleton.mp listed
    decide
  size k listed := by
    obtain rfl := List.mem_singleton.mp listed
    decide
  kernelOnly k listed := by
    obtain rfl := List.mem_singleton.mp listed
    rfl

end Xv6.Vm
