import Xv6.Vm.Conserve
import Xv6.Vm.Dealloc

/-!
# Growing and shrinking a process

What `deallocuvm`, `allocuvm` and `growproc` do to the user part of an address space and to the
bytes of its pages, for a process that has exactly the pages below its size. Each of them returns,
whichever calls of `kalloc` fail: no page is mapped twice and every page freed came from `kalloc`.
-/

namespace Xv6.Vm

open Function Lib Act List Multiset Option

variable {layout : Layout} {a a₀ a₁ a' : Alloc} {d d₀ d₁ d' : PageDir} {q : Page}
  {handed : Multiset Page} {va last : Nat}

theorem kfree_returns {v : Page} {post : Unit → Alloc → Prop} (ram : layout.IsRam v)
    (continued : post () { a.fill v 1 with freelist := v :: a.freelist }) :
    Returns (kfree layout v) post a := by
  obtain ⟨-, above, below⟩ := ram
  rw [kfree, Returns, ok_ite, if_neg (not_or.mpr ⟨not_lt.mpr above, not_le.mpr below⟩)]
  exact continued

/-! ### Shrinking -/

/-- The pages from an address up to a size are unmapped, and only their bytes have changed. -/
structure Clears (start oldsz : Nat) (d d' : PageDir) (a a' : Alloc) : Prop where
  entry : ∀ v, d'.entry v =
    if start / pgSize ≤ v ∧ v * pgSize < oldsz then none else d.entry v
  mem : ∀ q, (∀ v pte, start / pgSize ≤ v → v * pgSize < oldsz → d.entry v = some pte →
    pte.page ≠ q) → a'.mem q = a.mem q

theorem deallocLoop_returns {oldsz fuel start : Nat} (aligned : start % pgSize = 0)
    (enough : oldsz ≤ start + fuel * pgSize)
    (ram : ∀ v pte, start / pgSize ≤ v → v * pgSize < oldsz → d.entry v = some pte →
      layout.IsRam pte.page) :
    Returns (deallocLoop layout oldsz fuel d start) (fun d' a' => Clears start oldsz d d' a a')
      a := by
  have inside : ∀ v, v ∈ pagesFrom start oldsz ↔ start / pgSize ≤ v ∧ v * pgSize < oldsz :=
    fun v => by
      rw [mem_pagesFrom aligned]
      unfold pgSize at *
      omega
  rw [deallocLoop_eq_pageLoop aligned enough]
  refine ((pageLoop_ok List.nodup_range').weaken fun error refused => ?_).mono
    fun d' a' after => ?_
  · refine refused.2 fun v member pte mapped => ?_
    obtain ⟨first, last⟩ := (inside v).mp member
    exact ram v pte first last mapped
  · obtain ⟨-, frees⟩ := after
    refine ⟨fun v => ?_, fun q unused => frees.mem q fun member => ?_⟩
    · rw [frees.entry]
      exact if_congr (inside v) rfl rfl
    · obtain ⟨v, listed, frame⟩ := List.mem_filterMap.mp member
      obtain ⟨pte, mapped, rfl⟩ := map_eq_some_iff.mp frame
      obtain ⟨first, last⟩ := (inside v).mp listed
      exact unused v pte first last mapped rfl

theorem deallocuvm_returns {oldsz newsz : Nat} (less : newsz < oldsz)
    (ram : ∀ v pte, pgroundup newsz / pgSize ≤ v → v * pgSize < oldsz → d.entry v = some pte →
      layout.IsRam pte.page) :
    Returns (deallocuvm layout d oldsz newsz) (fun r a' =>
      r.1 = newsz ∧ Clears (pgroundup newsz) oldsz d r.2 a a') a := by
  rw [deallocuvm, Returns, ok_ite, if_neg (by omega), ok_bind]
  exact (deallocLoop_returns (pgroundup_mod newsz) (le_add_turns _ _) ram).mono
    fun d' a' after => ⟨rfl, after⟩

/-! ### Growing -/

/-- The virtual pages from `first` up to `last` have been mapped to zeroed pages that were free. -/
structure Grows (first last : Nat) (d d' : PageDir) (a a' : Alloc) : Prop where
  old : ∀ v, ¬ (first ≤ v ∧ v < last) → d'.entry v = d.entry v
  new : ∀ v, first ≤ v → v < last → ∃ q ∈ a.freelist, q ∉ a'.freelist ∧
    d'.entry v = some ⟨q, userPerm⟩ ∧ a'.mem q = fun _ => 0
  free : a'.freelist <:+ a.freelist
  mem : ∀ q ∉ a.freelist, a'.mem q = a.mem q

theorem Grows.refl (first : Nat) : Grows first first d d a a where
  old _ _ := rfl
  new v low high := absurd high (by omega)
  free := suffix_rfl
  mem _ _ := rfl

/-- One page more, taken from the free list and zeroed. -/
theorem Grows.page {first : Nat} {next : List Page} (grows : Grows first last d₀ d a₀ a)
    (ordered : first ≤ last) (distinct : a₀.freelist.Nodup) (list : a.freelist = q :: next)
    (entries : d'.entry = update d.entry last (some ⟨q, userPerm⟩)) (free : a'.freelist <:+ next)
    (mem : a'.mem = update a.mem q fun _ => 0) : Grows first (last + 1) d₀ d' a₀ a' := by
  have listed : q ∈ a.freelist := by rw [list]; exact List.mem_cons_self
  have rest : (q :: next).Nodup := list ▸ distinct.sublist grows.free.sublist
  have fewer : a'.freelist <:+ a.freelist := by
    rw [list]
    exact free.trans (suffix_cons _ _)
  refine ⟨fun v outside => ?_, fun v low high => ?_, fewer.trans grows.free, fun r unlisted => ?_⟩
  · rw [entries, update_of_ne (by omega), grows.old v (by omega)]
  · by_cases here : v = last
    · refine ⟨q, grows.free.subset listed, fun again => ?_, ?_, ?_⟩
      · exact (List.nodup_cons.mp rest).1 (free.subset again)
      · rw [entries, here, update_self]
      · rw [mem, update_self]
    · obtain ⟨r, member, gone, mapped, zero⟩ := grows.new v low (by omega)
      refine ⟨r, member, fun again => gone (fewer.subset again), ?_, ?_⟩
      · rw [entries, update_of_ne here, mapped]
      · have other : r ≠ q := fun same => gone (by rwa [same])
        rw [mem, update_of_ne other, zero]
  · have other : r ≠ q := fun same => unlisted (grows.free.subset (by rwa [same]))
    rw [mem, update_of_ne other, grows.mem r unlisted]

section Grow

variable {oldsz newsz : Nat} (small : newsz < kernbase) (distinct : a₀.freelist.Nodup)
  (ram : ∀ q ∈ a₀.freelist, layout.IsRam q)
  (unmapped : ∀ v, pgroundup oldsz / pgSize ≤ v → v * pgSize < newsz → d₀.entry v = none)

include ram unmapped in
/-- The loop of `allocuvm` gives up: the pages mapped so far are unmapped again. -/
theorem Grows.undo (more : oldsz < newsz) (reach : last * pgSize < newsz)
    (grows : Grows (pgroundup oldsz / pgSize) last d₀ d a₀ a) :
    Returns (deallocuvm layout d newsz oldsz) (fun r a' =>
      r.2.entry = d₀.entry ∧ ∀ q ∉ a₀.freelist, a'.mem q = a₁.mem q) a₁ := by
  -- A page mapped between the two sizes is one that the loop took from the free list.
  have new (v : Nat) (pte : Pte) (low : pgroundup oldsz / pgSize ≤ v) (high : v * pgSize < newsz)
      (found : d.entry v = some pte) : pte.page ∈ a₀.freelist := by
    by_cases here : v < last
    · grind [cases Grows]
    · rw [grows.old v (by omega), unmapped v low high] at found
      contradiction
  refine (deallocuvm_returns more fun v pte low high found =>
    ram _ (new v pte low high found)).mono fun r a' cleared =>
      ⟨funext fun v => ?_, fun q other => ?_⟩
  · rw [cleared.2.entry v]
    split
    · rename_i within
      rw [unmapped v within.1 within.2]
    · rename_i outside
      refine grows.old v fun here => outside ⟨here.1, lt_of_le_of_lt ?_ reach⟩
      exact Nat.mul_le_mul_right _ (le_of_lt here.2)
  · exact cleared.2.mem q fun v pte low high found same => other (same ▸ new v pte low high found)

include small distinct ram unmapped

/-- The loop maps all the pages, or leaves the directory as it was before. -/
theorem allocLoop_returns {n start : Nat} (aligned : start % pgSize = 0)
    (ordered : pgroundup oldsz ≤ start)
    (inside : 0 < n → oldsz < newsz ∧ start + n * pgSize < newsz + pgSize)
    (grows : Grows (pgroundup oldsz / pgSize) (start / pgSize) d₀ d a₀ a) :
    Returns (allocLoop layout oldsz newsz n d start) (fun r a' =>
      if r.1 then Grows (pgroundup oldsz / pgSize) (start / pgSize + n) d₀ r.2 a₀ a'
      else r.2.entry = d₀.entry ∧ ∀ q ∉ a₀.freelist, a'.mem q = a₀.mem q) a := by
  induction n generalizing d start a with
  | zero => exact grows
  | succ n ih =>
    obtain ⟨more, bound⟩ := inside (Nat.succ_pos n)
    rw [Nat.succ_mul] at bound
    have address : start / pgSize * pgSize = start :=
      Nat.div_mul_cancel (Nat.dvd_of_mod_eq_zero aligned)
    have reach : start / pgSize * pgSize < newsz := by omega
    have order : pgroundup oldsz / pgSize ≤ start / pgSize := Nat.div_le_div_right ordered
    rw [allocLoop, Returns, ok_bind]
    refine kalloc_returns ?_ fun mem next list => ?_
    · dsimp only
      rw [ok_bind]
      refine (grows.undo ram unmapped more reach).mono fun r a' undone => ?_
      exact ⟨undone.1, fun q other => (undone.2 q other).trans (grows.mem q other)⟩
    · have listed : mem ∈ a₀.freelist := grows.free.subset (by rw [list]; exact List.mem_cons_self)
      have unused : d.entry (start / pgSize) = none := by
        rw [grows.old _ (by omega), unmapped _ order reach]
      dsimp only
      rw [ok_bind, ok_modify, ok_bind]
      refine (mappages_ok aligned (by omega) (absurd unused)).mono fun r a' mapped => ?_
      obtain ⟨all, d'⟩ := r
      obtain ⟨took, -, -, entries⟩ := mapped
      cases all with
      | false =>
        -- The page is not in the directory, so it is given back by itself.
        simp only [ok_bind]
        have grows' : Grows (pgroundup oldsz / pgSize) (start / pgSize) d₀ d' a₀ a :=
          ⟨fun v out => (congrFun entries v).trans (grows.old v out),
            fun v low high => by rw [congrFun entries v]; exact grows.new v low high,
            grows.free, grows.mem⟩
        refine (grows'.undo ram unmapped more reach).mono fun r b undone => ?_
        refine kfree_returns (ram mem listed) ⟨undone.1, fun q other => ?_⟩
        have apart : q ≠ mem := fun same => other (by rwa [same])
        have filled : a'.mem q = a.mem q := by
          rw [took.mem]
          exact update_of_ne apart _ _
        exact (update_of_ne apart _ _).trans
          ((undone.2 q other).trans (filled.trans (grows.mem q other)))
      | true =>
        rw [if_pos rfl] at entries
        have next' : (start + pgSize) / pgSize = start / pgSize + 1 :=
          Nat.add_div_right start (by decide)
        have grown := grows.page order distinct list entries took.free took.mem
        rw [← next'] at grown
        refine (ih (by rw [Nat.add_mod_right, aligned]) (by omega) (fun left => ⟨more, by omega⟩)
          grown).mono fun r last after => ?_
        rw [next'] at after
        rwa [add_right_comm] at after

/-- `allocuvm` to a larger size below `KERNBASE`. -/
theorem allocuvm_returns (more : oldsz < newsz) :
    Returns (allocuvm layout d₀ oldsz newsz) (fun r a' =>
      r.1 = newsz ∧ Grows (pgroundup oldsz / pgSize) (pgroundup newsz / pgSize) d₀ r.2 a₀ a' ∨
      r.1 = 0 ∧ r.2.entry = d₀.entry ∧ ∀ q ∉ a₀.freelist, a'.mem q = a₀.mem q) a₀ := by
  have pages : pgroundup oldsz / pgSize + turns (pgroundup oldsz) newsz =
      pgroundup newsz / pgSize := by
    unfold pgroundup turns pgSize
    omega
  rw [allocuvm, Returns, ok_ite, if_neg (by omega), ok_ite, if_neg (by omega)]
  simp only [ok_bind, ok_pure]
  refine (allocLoop_returns small distinct ram unmapped (pgroundup_mod oldsz) le_rfl
    (fun left => ⟨more, add_turns_lt left⟩) (.refl _)).mono fun r a' after => ?_
  grind

end Grow

/-! ### The whole call -/

/-- A process that has exactly the pages below its size, each of them its own, and a free list that
holds none of them. -/
structure Process (layout : Layout) (d : PageDir) (a : Alloc) (sz : Nat) : Prop where
  small : sz ≤ kernbase
  exact : ∀ v < userPages, (d.entry v).isSome ↔ v * pgSize < pgroundup sz
  once : ∀ v < userPages, ∀ w < userPages, ∀ pte other, d.entry v = some pte →
    d.entry w = some other → pte.page = other.page → v = w
  apart : ∀ v < userPages, ∀ pte, d.entry v = some pte → pte.page ∉ a.freelist
  ram : ∀ v < userPages, ∀ pte, d.entry v = some pte → layout.IsRam pte.page
  free : a.freelist.Nodup
  freeRam : ∀ q ∈ a.freelist, layout.IsRam q

theorem pgroundup_mono {small large : Nat} (ordered : small ≤ large) :
    pgroundup small ≤ pgroundup large :=
  Nat.mul_le_mul_right _ (Nat.div_le_div_right (by omega))

/-- A page handed to the allocator at boot is one that `kfree` takes. -/
theorem isRam_of_handed (kernel : 0 < layout.kernelEnd) (low : layout.kernelEnd ≤ kinitEnd)
    (high : kinitEnd ≤ layout.phystop) (handed : q ∈ handedPages layout) : layout.IsRam q := by
  have range : pgroundup layout.kernelEnd / pgSize ≤ q ∧ q < layout.phystop / pgSize := by
    rcases mem_append.mp handed with early | late
    · have bounds := mem_rangePages early
      exact ⟨bounds.1, bounds.2.trans_le (Nat.div_le_div_right high)⟩
    · have bounds := mem_rangePages late
      have below : pgroundup layout.kernelEnd ≤ pgroundup kinitEnd := pgroundup_mono low
      exact ⟨(Nat.div_le_div_right below).trans bounds.1, bounds.2⟩
  grind [pgSize, pgroundup, Layout.IsRam]

theorem PageDir.mem_users {v : Nat} {pte : Pte} (below : v < userPages)
    (entry : d.entry v = some pte) : pte.page ∈ d.users := by
  refine mem_tally.mpr ⟨v, below, ?_⟩
  rw [entry]
  exact Multiset.mem_singleton_self _

/-- An address space with exactly the pages below a size shares none of them, if pages are counted
once. -/
theorem Process.of_nodup {sz : Nat} (small : sz ≤ kernbase)
    (exact : ∀ v < userPages, (d.entry v).isSome ↔ v * pgSize < pgroundup sz)
    (nodup : (a.free + d.users).Nodup) (ram : ∀ q ∈ a.free + d.users, layout.IsRam q) :
    Process layout d a sz := by
  obtain ⟨free, users, apart⟩ := nodup_add.mp nodup
  have used : ∀ v < userPages, ∀ pte, d.entry v = some pte → pte.page ∈ ptePage (d.entry v) := by
    intro v _ pte entry
    rw [entry]
    exact Multiset.mem_singleton_self _
  exact {
    small := small
    exact := exact
    once := fun v below w under pte other entry same equal =>
      tally_injective users below under (used v below pte entry)
        (equal ▸ used w under other same)
    apart := fun v below pte entry listed =>
      Multiset.disjoint_left.mp apart listed (PageDir.mem_users below entry)
    ram := fun v below pte entry =>
      ram _ (mem_add.mpr (.inr (PageDir.mem_users below entry)))
    free := coe_nodup.mp free
    freeRam := fun q listed => ram q (mem_add.mpr (.inl (Multiset.mem_coe.mpr listed))) }

/-- The free pages and those that a process uses are counted apart. -/
theorem Inv.split_space {s : State} {p : Nat} (inv : Inv handed s) (inside : p < nProc)
    (space : (s.proc p).pgdir = some d) : ∃ others, s.alloc.free + d.users + others = handed := by
  obtain ⟨rest, split, -⟩ := tally_split inside Proc.pages s.proc
  refine ⟨spacePages s.kpgdir + s.schedStacks + rest + onePage (s.proc p).kstack + {d.page} +
    d.tables, ?_⟩
  rw [← inv.books.pages, census, split, Proc.pages, space, spacePages_some, PageDir.pages]
  grind

theorem Inv.nodup_space {s : State} {p : Nat} (inv : Inv handed s) (inside : p < nProc)
    (space : (s.proc p).pgdir = some d) : (s.alloc.free + d.users).Nodup := by
  obtain ⟨others, pages⟩ := inv.split_space inside space
  have nodup := inv.nodup
  rw [← pages] at nodup
  exact (nodup_add.mp nodup).1

/-- In a state the kernel reaches, a process that has exactly the pages below its size shares none
of them and owns no free page. -/
theorem Inv.process {s : State} {p : Nat} (inv : Inv (handedPages layout) s)
    (kernel : 0 < layout.kernelEnd) (low : layout.kernelEnd ≤ kinitEnd)
    (high : kinitEnd ≤ layout.phystop) (inside : p < nProc) (space : (s.proc p).pgdir = some d)
    (exact : ∀ v < userPages, (d.entry v).isSome ↔ v * pgSize < pgroundup (s.proc p).sz) :
    Process layout d s.alloc (s.proc p).sz := by
  obtain ⟨others, pages⟩ := inv.split_space inside space
  refine .of_nodup (inv.books.sound p).size exact (inv.nodup_space inside space) fun q member => ?_
  apply isRam_of_handed kernel low high
  rw [← Multiset.mem_coe, ← pages]
  exact mem_add.mpr (.inl member)

/-- `growproc` did what it was asked: pages that stay keep their bytes, new ones are zero. -/
structure Resized (n : Int) (d d' : PageDir) (a a' : Alloc) (sz sz' : Nat) : Prop where
  size : (sz' : Int) = sz + n
  exact : ∀ v < userPages, (d'.entry v).isSome ↔ v * pgSize < pgroundup sz'
  kept : ∀ v pte, v * pgSize < pgroundup sz → v * pgSize < pgroundup sz' → d.entry v = some pte →
    d'.entry v = some pte ∧ a'.mem pte.page = a.mem pte.page
  zero : ∀ v, pgroundup sz ≤ v * pgSize → v * pgSize < pgroundup sz' →
    ∃ page, d'.entry v = some ⟨page, userPerm⟩ ∧ a'.mem page = fun _ => 0

/-- The size, the mappings of users and the bytes behind them are as before. -/
structure Untouched (d d' : PageDir) (a a' : Alloc) (sz sz' : Nat) : Prop where
  size : sz' = sz
  entry : ∀ v < userPages, d'.entry v = d.entry v
  mem : ∀ v < userPages, ∀ pte, d.entry v = some pte → a'.mem pte.page = a.mem pte.page

/-- What a result of `growproc` promises: all that was asked, or nothing. -/
def Promised (n r : Int) (d d' : PageDir) (a a' : Alloc) (sz sz' : Nat) : Prop :=
  r = 0 ∧ Resized n d d' a a' sz sz' ∨ r = -1 ∧ Untouched d d' a a' sz sz'

/-- `growproc` returns, and did what its result promises. -/
def AllOrNothing (layout : Layout) (p : Nat) (n : Int) (d : PageDir) (s : State) : Prop :=
  Returns (growproc layout p n) (fun r t => ∃ d', (t.proc p).pgdir = some d' ∧
    Promised n r d d' s.alloc t.alloc (s.proc p).sz (t.proc p).sz) s

/-- The virtual pages below a size. -/
theorem lt_pgroundup_iff (v sz : Nat) : v * pgSize < pgroundup sz ↔ v < pgroundup sz / pgSize := by
  unfold pgroundup pgSize
  omega

/-- The pages that start below a size are those below it rounded up. -/
theorem lt_size_iff (v sz : Nat) : v * pgSize < sz ↔ v * pgSize < pgroundup sz := by
  unfold pgroundup pgSize
  omega

namespace Process

variable {sz newsz v : Nat} {n : Int} (process : Process layout d a sz)

include process

theorem unmapped (below : v < userPages) (above : pgroundup sz ≤ v * pgSize) :
    d.entry v = none := by
  rw [← not_isSome_iff_eq_none, process.exact v below]
  omega

theorem below_of_lt (inside : v * pgSize < pgroundup sz) : v < userPages := by
  have small := process.small
  unfold pgroundup userPages kernbase pgSize at *
  omega

/-- `allocuvm` has grown the process. -/
theorem resized_of_grows (size : (newsz : Int) = sz + n) (more : sz < newsz)
    (grows : Grows (pgroundup sz / pgSize) (pgroundup newsz / pgSize) d d' a a') :
    Resized n d d' a a' sz newsz where
  size := size
  exact v below := by
    have before := process.exact v below
    have wider := pgroundup_mono (le_of_lt more)
    grind [pgSize, lt_pgroundup_iff, cases Grows]
  kept v pte before _ found := by
    have below := process.below_of_lt before
    rw [lt_pgroundup_iff] at before
    exact ⟨(grows.old v (by omega)).trans found, grows.mem _ (process.apart v below pte found)⟩
  zero v low high := by
    grind [lt_pgroundup_iff, pgSize, cases Grows]

/-- `deallocuvm` has shrunk the process. -/
theorem resized_of_clears (size : (newsz : Int) = sz + n) (less : newsz < sz)
    (clears : Clears (pgroundup newsz) sz d d' a a') : Resized n d d' a a' sz newsz := by
  have narrower := pgroundup_mono (le_of_lt less)
  -- A page that stays lies below the ones that go.
  have stays {v : Nat} (inside : v * pgSize < pgroundup newsz) :
      ¬ (pgroundup newsz / pgSize ≤ v ∧ v * pgSize < sz) := by
    rw [lt_pgroundup_iff] at inside
    omega
  refine ⟨size, fun v below => ?_, fun v pte before after found => ⟨?_, ?_⟩, fun v low high => ?_⟩
  · rw [clears.entry v]
    grind [pgSize, pgroundup, Nat.div_le_of_le_mul, cases Process, cases Clears]
  · rw [clears.entry v, if_neg (stays after), found]
  · refine clears.mem _ fun w other first last mapped same => ?_
    have belowW := process.below_of_lt ((lt_size_iff w sz).mp last)
    grind [lt_pgroundup_iff, cases Process]
  · omega

theorem refl_resized : Resized 0 d d a a sz sz where
  size := (Int.add_zero _).symm
  exact := process.exact
  kept _ _ _ _ found := ⟨found, rfl⟩
  zero v low high := absurd high (by omega)

end Process

section Growproc

variable {s : State} {p : Nat} {n : Int} (space : (s.proc p).pgdir = some d)

/-- The new size as `growproc` computes it. -/
def askedSize (sz : Nat) (n : Int) : Nat := ((sz + n) % uintSize).toNat

theorem askedSize_eq {sz : Nat} (low : 0 ≤ sz + n) (high : sz + n < uintSize) :
    (askedSize sz n : Int) = sz + n := by
  rw [askedSize, Int.emod_eq_of_lt low high]
  exact Int.toNat_of_nonneg low

include space

/-- `growproc` with a size to reach is the change of the address space; the size 0 is an error. -/
theorem allOrNothing_iff {resize : AllocM (Nat × PageDir)} (asked : n ≠ 0)
    (chosen : resize = if n > 0 then allocuvm layout d (s.proc p).sz (askedSize (s.proc p).sz n)
      else deallocuvm layout d (s.proc p).sz (askedSize (s.proc p).sz n)) :
    AllOrNothing layout p n d s ↔ Returns resize (fun r a' =>
      if r.1 = 0 then Promised n (-1) d r.2 s.alloc a' (s.proc p).sz (s.proc p).sz
      else Promised n 0 d r.2 s.alloc a' (s.proc p).sz r.1) s.alloc := by
  unfold AllOrNothing
  rw [growproc]
  simp only [Returns, ok_bind, ok_get, space]
  rw [ok_ite, if_neg asked, ok_bind, ok_onAlloc, ← askedSize, ← chosen]
  simp only [ok_bind, ok_modify, ok_ite, ok_pure, State.setProc,
    update_self, Option.some.injEq, exists_eq_left']

variable (process : Process layout d s.alloc (s.proc p).sz)

include process

theorem growproc_zero : AllOrNothing layout p 0 d s := by
  unfold AllOrNothing
  rw [growproc]
  simp only [Returns, ok_bind, ok_get, space, if_true, ok_pure, Option.some.injEq,
    exists_eq_left']
  exact .inl ⟨rfl, process.refl_resized⟩

theorem growproc_grow (positive : 0 < n) (high : n < 2 ^ 31) : AllOrNothing layout p n d s := by
  have small := process.small
  have size : (askedSize (s.proc p).sz n : Int) = (s.proc p).sz + n := by
    unfold kernbase at small
    exact askedSize_eq (by omega) (by unfold uintSize; omega)
  have more : (s.proc p).sz < askedSize (s.proc p).sz n := by omega
  rw [allOrNothing_iff space (by omega) (if_pos positive).symm]
  by_cases tooLarge : askedSize (s.proc p).sz n ≥ kernbase
  · rw [allocuvm, Returns, ok_ite, if_pos tooLarge]
    exact .inr ⟨rfl, rfl, fun _ _ => rfl, fun _ _ _ _ => rfl⟩
  · have unmapped (v : Nat) (low : pgroundup (s.proc p).sz / pgSize ≤ v)
        (inside : v * pgSize < askedSize (s.proc p).sz n) : d.entry v = none := by
      refine process.unmapped ?_ (not_lt.mp ((lt_pgroundup_iff v _).not.mpr (by omega)))
      unfold userPages kernbase pgSize at *
      omega
    refine (allocuvm_returns (by omega) process.free process.freeRam unmapped more).mono
      fun r a' result => ?_
    obtain ⟨grown, grows⟩ | ⟨zero, entries, bytes⟩ := result
    · rw [if_neg (by omega), grown]
      exact .inl ⟨rfl, process.resized_of_grows size more grows⟩
    · rw [if_pos zero]
      exact .inr ⟨rfl, rfl, fun v _ => congrFun entries v,
        fun v below pte found => bytes _ (process.apart v below pte found)⟩

omit space in
/-- The pages from a smaller size on can be freed. -/
theorem deallocuvm_process {newsz : Nat} (less : newsz < (s.proc p).sz) :
    Returns (deallocuvm layout d (s.proc p).sz newsz) (fun r a' =>
      r.1 = newsz ∧ Clears (pgroundup newsz) (s.proc p).sz d r.2 s.alloc a') s.alloc :=
  deallocuvm_returns less fun v pte _ last found =>
    process.ram v (process.below_of_lt ((lt_size_iff v _).mp last)) pte found

theorem growproc_shrink (negative : n < 0) (left : 0 < (s.proc p).sz + n) :
    AllOrNothing layout p n d s := by
  have small := process.small
  have size : (askedSize (s.proc p).sz n : Int) = (s.proc p).sz + n := by
    unfold kernbase at small
    exact askedSize_eq (by omega) (by unfold uintSize; omega)
  have less : askedSize (s.proc p).sz n < (s.proc p).sz := by omega
  rw [allOrNothing_iff space (by omega) (if_neg (by omega)).symm]
  refine (deallocuvm_process process less).mono fun r a' result => ?_
  rw [if_neg (by omega), result.1]
  exact .inl ⟨rfl, process.resized_of_clears size less result.2⟩

omit process in
/-- `deallocuvm` refuses a size that is not smaller, and its result says that nothing is wrong. -/
theorem growproc_wraps (negative : n < 0) (low : -2 ^ 31 ≤ n) (beyond : (s.proc p).sz + n < 0) :
    AllOrNothing layout p n d s ↔ (s.proc p).sz = 0 := by
  have wraps : (s.proc p).sz ≤ askedSize (s.proc p).sz n := by
    unfold askedSize uintSize
    omega
  rw [allOrNothing_iff space (by omega) (if_neg (by omega)).symm, deallocuvm, Returns, ok_ite,
    if_pos wraps, ok_pure]
  dsimp only
  constructor
  · intro promised
    by_contra nonzero
    rw [if_neg nonzero] at promised
    obtain ⟨-, resized⟩ | ⟨wrong, -⟩ := promised
    · have size := resized.size
      omega
    · contradiction
  · intro empty
    rw [if_pos empty]
    exact .inr ⟨rfl, rfl, fun _ _ => rfl, fun _ _ _ _ => rfl⟩

/-- Shrinking to nothing unmaps the first page and reports an error. -/
theorem growproc_to_zero (negative : n < 0) (exactly : (s.proc p).sz + n = 0) :
    ¬ AllOrNothing layout p n d s := by
  have asked : askedSize (s.proc p).sz n = 0 := by
    unfold askedSize
    rw [exactly]
    rfl
  have first : 0 < userPages := by decide
  intro all
  rw [allOrNothing_iff space (by omega) (if_neg (by omega)).symm, asked] at all
  have both := all.and (deallocuvm_process process (show 0 < (s.proc p).sz by omega))
  unfold Ok at both
  split at both
  · obtain ⟨promised, zero, clears⟩ := both
    rw [if_pos zero] at promised
    obtain ⟨wrong, -⟩ | ⟨-, untouched⟩ := promised
    · contradiction
    · have gone := clears.entry 0
      rw [if_pos ⟨by decide, by omega⟩] at gone
      have mapped := (process.exact 0 first).mpr ((lt_size_iff 0 _).mp (by omega))
      rw [← untouched.entry 0 first, gone] at mapped
      contradiction
  · exact both

/-- `growproc` is all or nothing unless it is asked to take away all the memory of a process or
more. -/
theorem growproc_all_or_nothing_iff (low : -2 ^ 31 ≤ n) (high : n < 2 ^ 31) :
    AllOrNothing layout p n d s ↔ (n < 0 → 0 < (s.proc p).sz → 0 < (s.proc p).sz + n) := by
  by_cases negative : n < 0
  · by_cases left : 0 < (s.proc p).sz + n
    · exact iff_of_true (growproc_shrink space process negative left) fun _ _ => left
    · by_cases exactly : (s.proc p).sz + n = 0
      · refine iff_of_false (growproc_to_zero space process negative exactly) fun good => ?_
        have := good negative (by omega)
        omega
      · rw [growproc_wraps space negative low (by omega)]
        constructor
        · intro empty _ some
          omega
        · intro good
          by_contra nonzero
          exact left (good negative (by omega))
  · refine iff_of_true ?_ fun wrong => absurd wrong negative
    by_cases zero : n = 0
    · subst zero
      exact growproc_zero space process
    · exact growproc_grow space process (by omega) high

end Growproc

/-- Two pages mapped by one page table. -/
def twoPages : PageDir where
  page := 1016
  table i := if i = 0 then some ⟨1017, fun k => if k < 2 then some ⟨1018 + k, userPerm⟩ else none⟩
    else none

/-- The first process with 8000 bytes and three free pages; the second call of `kalloc` fails. -/
def twoPageState : State :=
  { reset [] with
    alloc := ⟨[1020, 1021, 1022], [false, true], fun _ _ => 7⟩
    proc := fun _ => ⟨.live, none, none, some twoPages, 8000⟩ }

theorem twoPages_entry (v : Nat) :
    twoPages.entry v = if v < 2 then some ⟨1018 + v, userPerm⟩ else none := by
  grind [PageDir.entry, twoPages, nPtEntries]

theorem twoPages_process : Process smallLayout twoPages twoPageState.alloc 8000 := by
  have found {v : Nat} {pte : Pte} (mapped : twoPages.entry v = some pte) :
      (v = 0 ∨ v = 1) ∧ pte.page = 1018 + v := by
    rw [twoPages_entry] at mapped
    obtain ⟨small, same⟩ := ite_none_right_eq_some.mp mapped
    cases same
    exact ⟨by omega, rfl⟩
  refine ⟨by decide, fun v _ => ?_, fun v _ w _ pte other first second same => ?_,
    fun v _ pte mapped => ?_, fun v _ pte mapped => ?_, by decide, by decide⟩
  · rw [twoPages_entry, lt_pgroundup_iff]
    change _ ↔ v < 2
    split <;> simp_all
  · exact Nat.add_left_cancel ((found first).2.symm.trans (same.trans (found second).2))
  · obtain ⟨rfl | rfl, page⟩ := found mapped
    · rw [page]
      decide
    · rw [page]
      decide
  · obtain ⟨rfl | rfl, page⟩ := found mapped
    · rw [page]
      decide
    · rw [page]
      decide

/-- Growing by a page and a byte fails half way and leaves the process as it was. -/
theorem growproc_all_or_nothing_two_pages :
    Process smallLayout twoPages twoPageState.alloc (twoPageState.proc 0).sz ∧
      AllOrNothing smallLayout 0 4300 twoPages twoPageState :=
  ⟨twoPages_process, (growproc_all_or_nothing_iff rfl twoPages_process (by decide) (by decide)).mpr
    (fun negative => absurd negative (by decide))⟩

/-- `growproc(-8000)` reports an error and takes both pages away; `growproc(-9000)` reports success
and changes nothing. -/
theorem growproc_takes_all :
    Process smallLayout twoPages twoPageState.alloc (twoPageState.proc 0).sz ∧
      twoPages.entry 0 ≠ none ∧
      (growproc smallLayout 0 (-8000) twoPageState).toOption.map (fun out =>
        (out.1, (out.2.proc 0).sz, (out.2.proc 0).pgdir.bind fun d => d.entry 0)) =
          some (-1, 8000, none) ∧
      (growproc smallLayout 0 (-9000) twoPageState).toOption.map (fun out =>
        (out.1, (out.2.proc 0).sz)) = some (0, 8000) :=
  ⟨twoPages_process, by decide, by decide +kernel, by decide +kernel⟩

end Xv6.Vm
