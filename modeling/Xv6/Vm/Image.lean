import Xv6.Vm.Copyout
import Xv6.Vm.Grow

/-!
# Building an address space

What `setupkvm`, `allocuvm`, `clearpteu`, `copyuvm` and `freevm` do to an address space that is
being built: it has exactly the pages below its size, all its pages come from the free list as it
was at the beginning, and no other page has changed. None of these calls panics, whichever calls of
`kalloc` fail, because `kmap` maps nothing twice and every page that is freed came from `kalloc`.
-/

namespace Xv6.Vm

open Function Lib Act Multiset List Option PageDir

variable {layout : Layout} {a a₀ a₁ a' : Alloc} {d d₀ d₁ d' : PageDir} {hand : Multiset Page}
  {src : PageDir} {q : Page} {perm : Perm} {pte : Pte}

/-! ### Pages in hand -/

/-- The pages in hand have been taken from the free list, and no page that was not free has
changed. -/
structure Hold (a₀ : Alloc) (hand : Multiset Page) (a : Alloc) : Prop where
  pages : a.free + hand = a₀.free
  mem : ∀ q ∉ a₀.freelist, a.mem q = a₀.mem q

theorem Hold.refl (a : Alloc) : Hold a 0 a := ⟨add_zero _, fun _ _ => rfl⟩

theorem Hold.listed (hold : Hold a₀ hand a) (member : q ∈ a.free + hand) : q ∈ a₀.freelist := by
  rw [hold.pages] at member
  exact Multiset.mem_coe.mp member

/-- Pages in hand are written to. -/
theorem Hold.write (hold : Hold a₀ hand a) (free : a'.freelist = a.freelist)
    (mem : ∀ q ∉ a.free + hand, a'.mem q = a.mem q) : Hold a₀ hand a' where
  pages := by
    rw [← hold.pages]
    unfold Alloc.free
    rw [free]
  mem q other := by
    rw [mem q fun member => other (hold.listed member), hold.mem q other]

/-- Free pages, each of them once, that `kfree` takes. -/
structure Pool (layout : Layout) (a : Alloc) : Prop where
  nodup : a.freelist.Nodup
  ram : ∀ q ∈ a.freelist, layout.IsRam q

/-- `kalloc` puts a page in the hand, or refuses. -/
theorem kalloc_hold {post : Option Page → Alloc → Prop} (hold : Hold a₀ hand a)
    (refused : ∀ a', Hold a₀ hand a' → a'.mem = a.mem → post none a')
    (given : ∀ q a', Hold a₀ (hand + {q}) a' → a'.mem = a.mem → post (some q) a') :
    Returns kalloc post a := by
  refine kalloc_returns ?_ fun q next list => ?_
  · exact refused _ ⟨hold.pages, hold.mem⟩ rfl
  · refine given q _ ⟨?_, hold.mem⟩ rfl
    have free : a.free = {q} + (next : Multiset Page) := by
      rw [Alloc.free, list, ← cons_coe, singleton_add]
    rw [← hold.pages, free]
    change (next : Multiset Page) + _ = _
    grind

/-- `kfree` of a page in hand puts it back. -/
theorem kfree_hold {v : Page} (pool : Pool layout a₀) (hold : Hold a₀ (hand + {v}) a) :
    Returns (kfree layout v) (fun _ a' => Hold a₀ hand a') a := by
  have listed : v ∈ a₀.freelist := hold.listed
    (mem_add.mpr (.inr (mem_add.mpr (.inr (Multiset.mem_singleton_self v)))))
  refine kfree_returns (pool.ram v listed) ⟨?_, fun q other => ?_⟩
  · rw [← hold.pages]
    change ((v :: a.freelist : List Page) : Multiset Page) + hand = _
    rw [← cons_coe, ← singleton_add, Alloc.free]
    grind
  · have apart : q ≠ v := fun same => other (same ▸ listed)
    exact (update_of_ne apart _ _).trans (hold.mem q other)

/-- `mappages` of a page in hand at a page that is not mapped. -/
theorem mappages_hold {va : Nat} (aligned : va % pgSize = 0) (below : va < kernbase)
    (unmapped : d.entry (va / pgSize) = none) (kernel : d.KernelOnly)
    (hold : Hold a₀ (d.pages + {q}) a) :
    Returns (mappages d va pgSize (q * pgSize) perm) (fun r a' => a'.mem = a.mem ∧
      r.2.KernelOnly ∧ r.2.entry = (if r.1 then update d.entry (va / pgSize) (some ⟨q, perm⟩)
        else d.entry) ∧ Hold a₀ (r.2.pages + if r.1 then 0 else {q}) a') a := by
  refine (mappages_ok aligned below (absurd unmapped)).mono fun r a' mapped => ?_
  obtain ⟨took, kept, only, entries⟩ := mapped
  refine ⟨took.mem, only kernel, entries, ?_, fun r other => by rw [took.mem, hold.mem r other]⟩
  rw [← hold.pages]
  obtain ⟨all, d'⟩ := r
  cases all <;> simp only [Bool.false_eq_true, if_true, if_false] at kept ⊢ <;> grind

/-! ### Freeing an address space -/

theorem freeTables_returns {indices : List Nat}
    (ram : ∀ q ∈ d.tables, layout.IsRam q) (inside : ∀ i ∈ indices, i < nPdEntries) :
    Returns (freeTables layout d indices) (fun _ a' => ∀ q ∉ d.tables, a'.mem q = a.mem q) a := by
  have member {i : Nat} {t : PageTable} (low : i < nPdEntries) (table : d.table i = some t) :
      t.page ∈ d.tables := by
    refine mem_tally.mpr ⟨i, low, ?_⟩
    rw [table]
    exact Multiset.mem_singleton_self _
  refine (ok_forM (fun rest now => (∀ i ∈ rest, i < nPdEntries) ∧
    ∀ q ∉ d.tables, now.mem q = a.mem q) ⟨inside, fun _ _ => rfl⟩ fun i rest now inv => ?_).mono
    fun _ now all => all.2
  have low := inv.1 i List.mem_cons_self
  have left : ∀ j ∈ rest, j < nPdEntries := fun j listed => inv.1 j (List.mem_cons_of_mem _ listed)
  cases table : d.table i with
  | none => exact ⟨left, inv.2⟩
  | some t =>
    refine kfree_returns (ram _ (member low table)) ⟨left, fun q other => ?_⟩
    have apart : q ≠ t.page := fun same => other (same ▸ member low table)
    exact (update_of_ne apart _ _).trans (inv.2 q other)

/-- `freevm` returns, and writes to no page but its own and free ones. -/
theorem freevm_returns (ram : ∀ q ∈ a.free + d.pages, layout.IsRam q) :
    Returns (freevm layout d) (fun _ a' => ∀ q ∉ a.free + d.pages, a'.mem q = a.mem q) a := by
  have users {v : Nat} {pte : Pte} (below : v * pgSize < kernbase) (found : d.entry v = some pte) :
      pte.page ∈ a.free + d.pages := by
    refine mem_add.mpr (.inr (mem_add.mpr (.inr (mem_tally.mpr ⟨v, ?_, ?_⟩))))
    · unfold userPages kernbase pgSize at *
      omega
    · rw [found]
      exact Multiset.mem_singleton_self _
  rw [freevm, Returns, ok_bind]
  refine ((deallocuvm_returns (by decide) fun v pte _ below found => ram _ (users below found)).and
    (deallocuvm_ok (Nat.le_refl kernbase))).mono fun r b after => ?_
  obtain ⟨⟨-, clears⟩, kept, -⟩ := after
  have mine (q : Page) (member : q ∈ r.2.pages) : q ∈ a.free + d.pages :=
    kept ▸ mem_add.mpr (.inr member)
  have tables (q : Page) (member : q ∈ r.2.tables) : q ∈ a.free + d.pages :=
    mine q (mem_add.mpr (.inl (mem_add.mpr (.inr member))))
  have top : r.2.page ∈ a.free + d.pages :=
    mine _ (mem_add.mpr (.inl (mem_add.mpr
      (.inl (Multiset.mem_singleton_self _)))))
  dsimp only
  rw [ok_bind]
  refine (freeTables_returns (fun q member => ram q (tables q member))
    fun i listed => List.mem_range.mp listed).mono fun _ c freed => ?_
  refine kfree_returns (ram _ top) fun q other => ?_
  have apart : q ≠ r.2.page := fun same => other (same ▸ top)
  rw [Alloc.fill]
  grind [cases Clears]

/-- `freevm` of an address space in hand puts its pages back. -/
theorem freevm_hold (pool : Pool layout a₀) (hold : Hold a₀ (hand + d.pages) a) :
    Returns (freevm layout d) (fun _ a' => Hold a₀ hand a') a := by
  have whole : ∀ q ∈ a.free + d.pages, q ∈ a₀.freelist := fun q member =>
    hold.listed (by
      grind)
  refine ((freevm_returns fun q member => pool.ram q (whole q member)).and freevm_ok).mono
    fun _ a' after => ⟨?_, fun q other => ?_⟩
  · rw [after.2, ← hold.pages]
    grind
  · rw [after.1 q fun member => other (whole q member), hold.mem q other]

/-! ### The kernel part -/

/-- The number of bytes of an entry of `kmap`. -/
def Kmap.size (k : Kmap) : Nat := (k.physEnd + uintSize - k.physStart) % uintSize

/-- The virtual pages that an entry of `kmap` maps. -/
def Kmap.Maps (k : Kmap) (v : Nat) : Prop := k.virt / pgSize ≤ v ∧ v * pgSize < k.virt + k.size

/-- The kernel has room for its stacks and tables below and above the first 4 megabytes, and `kmap`
maps no page twice and the last page of the address space once. -/
structure Layout.Fit (layout : Layout) : Prop where
  kernel : 0 < layout.kernelEnd
  low : layout.kernelEnd ≤ kinitEnd
  high : kinitEnd ≤ layout.phystop
  apart : layout.kmap.Pairwise fun k l => ∀ v, k.Maps v → ¬ l.Maps v
  top : ∃ k ∈ layout.kmap, k.Maps (uintSize / pgSize - 1)

/-- The kernel's mappings as they are linked fit. -/
theorem linked_fit {kernelEnd data : Nat} {initcode : List UInt8} (text : kernlink < data)
    (top : data < kernbase + phystop) (aligned : data % pgSize = 0) (kernel : 0 < kernelEnd)
    (low : kernelEnd ≤ kinitEnd) : (linked kernelEnd data initcode text top aligned).Fit where
  kernel := kernel
  low := low
  high := show kinitEnd ≤ phystop by decide
  apart := by
    unfold kernlink kernbase extmem at text
    unfold kernbase phystop at top
    unfold pgSize at aligned
    simp only [linked, kmap, List.pairwise_cons, List.mem_cons, not_mem_nil, or_false,
      forall_eq_or_imp, forall_eq, List.Pairwise.nil, false_imp_iff, implies_true, and_true,
      Kmap.Maps, Kmap.size, kernbase, extmem, kernlink, phystop, devspace, uintSize, pgSize]
    refine ⟨⟨fun v _ _ => ?_, fun v _ _ => ?_, fun v _ _ => ?_⟩,
      ⟨fun v _ _ => ?_, fun v _ _ => ?_⟩, fun v _ _ => ?_⟩
    all_goals omega
  top := by
    refine ⟨⟨devspace, devspace, 0, ⟨true, false⟩⟩, ?_, by decide, by decide⟩
    simp [linked, kmap]

/-- A machine with 32 pages for the allocator whose kernel maps two pages and the last page of the
address space. -/
def tinyLayout : Layout where
  kernelEnd := kinitEnd - 8 * pgSize
  phystop := kinitEnd + 24 * pgSize
  initcode := [0xeb, 0xfe]
  kmap := [⟨kernbase, 0, 2 * pgSize, ⟨true, false⟩⟩,
    ⟨uintSize - pgSize, uintSize - pgSize, 0, ⟨true, false⟩⟩]
  above := by decide
  size := by decide
  kernelOnly := by decide

theorem tinyLayout_fit : tinyLayout.Fit where
  kernel := by decide
  low := by decide
  high := by decide
  apart := by
    grind [tinyLayout, Kmap.Maps, Kmap.size, kernbase, uintSize, pgSize]
  top := ⟨⟨uintSize - pgSize, uintSize - pgSize, 0, ⟨true, false⟩⟩, by simp [tinyLayout], by decide,
    by decide⟩

/-- `mappages` of an entry of `kmap` is the loop over the pages that the entry maps. -/
theorem mappages_kmap {k : Kmap} (listed : k ∈ layout.kmap) (d : PageDir) :
    ∃ n, mappages d k.virt k.size k.physStart k.perm = mapLoop k.perm n d k.virt k.physStart ∧
      k.virt + n * pgSize ≤ uintSize ∧
      ∀ v, k.Maps v ↔ k.virt / pgSize ≤ v ∧ v < k.virt / pgSize + n := by
  obtain ⟨-, -, aligned⟩ := layout.above k listed
  obtain ⟨positive, fits⟩ := layout.size k listed
  rw [← Kmap.size] at positive fits
  have start : pgrounddown k.virt = k.virt := Nat.div_mul_cancel (Nat.dvd_of_mod_eq_zero aligned)
  have last : (k.virt + k.size - 1) % uintSize = k.virt + k.size - 1 := Nat.mod_eq_of_lt (by omega)
  refine ⟨_, by rw [mappages, start], ?_, fun v => ?_⟩
  · have range := mappages_range aligned positive fits
    rwa [start] at range
  · rw [last, Kmap.Maps]
    generalize k.virt = virt at *
    generalize k.size = size at *
    unfold pgrounddown uintSize pgSize at *
    omega

theorem mapKernel_hold {kmap : List Kmap} (pool : Pool layout a₀)
    (listed : ∀ k ∈ kmap, k ∈ layout.kmap)
    (apart : kmap.Pairwise fun k l => ∀ v, k.Maps v → ¬ l.Maps v)
    (unmapped : ∀ k ∈ kmap, ∀ v, k.Maps v → d.entry v = none) (kernel : d.KernelOnly)
    (hold : Hold a₀ (hand + d.pages) a) :
    Returns (mapKernel layout kmap d) (fun r a' => Hold a₀ (hand + spacePages r) a' ∧
      ∀ d', r = some d' → d'.KernelOnly ∧
        (∀ v, (∀ k ∈ kmap, ¬ k.Maps v) → d'.entry v = d.entry v) ∧
        ∀ k ∈ kmap, ∀ v, k.Maps v → (d'.entry v).isSome) a := by
  induction kmap generalizing d a with
  | nil =>
    refine ⟨hold, fun d' same => ?_⟩
    cases same
    exact ⟨kernel, fun _ _ => rfl, fun k wrong => absurd wrong (not_mem_nil)⟩
  | cons k kmap ih =>
    have here := listed k List.mem_cons_self
    have rest : ∀ l ∈ kmap, l ∈ layout.kmap := fun l more => listed l (List.mem_cons_of_mem _ more)
    obtain ⟨above, -, aligned⟩ := layout.above k here
    obtain ⟨n, loop, inside, range⟩ := mappages_kmap here d
    obtain ⟨first, others⟩ := List.pairwise_cons.mp apart
    rw [mapKernel, Returns, ok_bind]
    change Ok _ (mappages d k.virt k.size k.physStart k.perm) _ a
    rw [loop]
    refine (mapLoop_ok (layout.kernelOnly k here) (fun _ => ⟨above, inside⟩) kernel
      fun v low high => absurd (unmapped k List.mem_cons_self v ((range v).mpr ⟨low, high⟩))).mono
      fun r a₁ mapped => ?_
    obtain ⟨all, d₁⟩ := r
    obtain ⟨took, kept, only, same, whole⟩ := mapped
    have hold₁ : Hold a₀ (hand + d₁.pages) a₁ := by
      refine ⟨?_, fun q other => by rw [took.mem, hold.mem q other]⟩
      rw [← hold.pages]
      dsimp only at kept
      grind
    cases all with
    | true =>
      refine (ih rest others (fun l more v maps => ?_) only hold₁).mono fun r a₂ after => ?_
      all_goals grind
    | false =>
      dsimp only
      rw [ok_bind]
      refine (freevm_hold pool hold₁).mono fun _ a₂ freed => ⟨?_, fun d' wrong => ?_⟩
      · rwa [spacePages_none, add_zero]
      · exact absurd wrong (by simp)

/-- An address space that is being built from free pages, with exactly the pages below its size. -/
structure Image (a₀ : Alloc) (d : PageDir) (sz : Nat) (a : Alloc) : Prop where
  hold : Hold a₀ d.pages a
  kernel : d.KernelOnly
  small : sz ≤ kernbase
  exact : ∀ v < userPages, (d.entry v).isSome ↔ v * pgSize < pgroundup sz
  /-- The last page of the address space is mapped. -/
  top : (d.entry (uintSize / pgSize - 1)).isSome

theorem PageDir.mem_pages {v : Nat} (below : v < userPages) (entry : d.entry v = some pte) :
    pte.page ∈ d.pages :=
  mem_add.mpr (.inr (mem_users below entry))

namespace Image

variable {sz : Nat} (image : Image a₀ d sz a)

include image

theorem process (pool : Pool layout a₀) : Process layout d a sz := by
  have whole : (a.free + d.pages).Nodup := by
    rw [image.hold.pages]
    exact coe_nodup.mpr pool.nodup
  have part : a.free + d.users ≤ a.free + d.pages :=
    Multiset.le_iff_exists_add.mpr ⟨{d.page} + d.tables, by rw [PageDir.pages]; grind⟩
  exact .of_nodup image.small image.exact (nodup_of_le part whole)
    fun q member => pool.ram q (image.hold.listed (mem_of_le part member))

/-- The image with entries changed in place. -/
theorem congr (hold : Hold a₀ d'.pages a') (kernel : d'.KernelOnly)
    (same : ∀ v, (d'.entry v).isSome = (d.entry v).isSome) : Image a₀ d' sz a' where
  hold := hold
  kernel := kernel
  small := image.small
  exact v below := by rw [same, image.exact v below]
  top := by rw [same, image.top]

/-- Pages of the image are written to. -/
theorem write (free : a'.freelist = a.freelist) (mem : ∀ q ∉ d.pages, a'.mem q = a.mem q) :
    Image a₀ d sz a' :=
  image.congr (image.hold.write free fun q other => mem q fun member =>
    other (mem_add.mpr (.inr member))) image.kernel fun _ => rfl

end Image

theorem setupkvm_image (fit : layout.Fit) (pool : Pool layout a₀) :
    Returns (setupkvm layout) (fun r a =>
      (r = none → Hold a₀ 0 a) ∧ ∀ d, r = some d → Image a₀ d 0 a) a₀ := by
  rw [setupkvm, Returns, ok_bind]
  refine kalloc_hold (.refl a₀) (fun a hold _ => ⟨fun _ => hold, by simp⟩) fun page a hold _ => ?_
  rw [← pages_empty] at hold
  refine (mapKernel_hold pool (fun _ listed => listed) fit.apart (fun _ _ _ _ => rfl)
    (fun v _ pte found => absurd found (by simp [empty, PageDir.entry])) hold).mono
    fun r a after => ?_
  obtain ⟨hold', result⟩ := after
  rw [zero_add] at hold'
  refine ⟨?_, ?_⟩
  · rintro rfl
    exact hold'
  · rintro d rfl
    obtain ⟨kernel, same, whole⟩ := result d rfl
    obtain ⟨k, listed, maps⟩ := fit.top
    refine ⟨hold', kernel, by decide, fun v below => ?_, whole k listed _ maps⟩
    rw [same v fun k listed maps => ?_]
    · have none : (empty page).entry v = none := rfl
      rw [none]
      unfold pgroundup pgSize
      simp
    · have above := (layout.above k listed).1
      have start := maps.1
      unfold kernbase at above
      unfold userPages kernbase pgSize at *
      omega

/-- `allocuvm` grows an image, or leaves it as it is; new pages are the user's. -/
theorem allocuvm_image {sz newsz : Nat} (pool : Pool layout a₀) (image : Image a₀ d sz a) :
    Returns (allocuvm layout d sz newsz) (fun r a' =>
      (r.1 = 0 → Image a₀ r.2 sz a') ∧
      (r.1 ≠ 0 → Image a₀ r.2 r.1 a' ∧ r.1 = max sz newsz ∧ newsz < kernbase ∧
        ∀ v, pgroundup sz ≤ v * pgSize → v * pgSize < pgroundup r.1 →
          ∃ q, r.2.entry v = some ⟨q, userPerm⟩)) a := by
  have same (enough : newsz ≤ sz) (inside : newsz < kernbase) : (sz = 0 → Image a₀ d sz a) ∧
      (sz ≠ 0 → Image a₀ d sz a ∧ sz = max sz newsz ∧ newsz < kernbase ∧
        ∀ v, pgroundup sz ≤ v * pgSize → v * pgSize < pgroundup sz →
          ∃ q, d.entry v = some ⟨q, userPerm⟩) :=
    ⟨fun _ => image, fun _ => ⟨image, (Nat.max_eq_left enough).symm, inside,
      fun v low high => absurd high (by omega)⟩⟩
  by_cases large : newsz ≥ kernbase
  · rw [allocuvm, Returns, ok_ite, if_pos large]
    exact ⟨fun _ => image, fun wrong => absurd rfl wrong⟩
  by_cases less : newsz < sz
  · rw [allocuvm, Returns, ok_ite, if_neg large, ok_ite, if_pos less]
    exact same (by omega) (by omega)
  by_cases equal : newsz = sz
  · subst equal
    have none : turns (pgroundup newsz) newsz = 0 := by
      unfold turns pgroundup pgSize
      omega
    rw [allocuvm, Returns, ok_ite, if_neg large, ok_ite, if_neg less]
    dsimp only
    rw [none]
    exact same le_rfl (by omega)
  have process := image.process pool
  have unmapped (v : Nat) (low : pgroundup sz / pgSize ≤ v) (high : v * pgSize < newsz) :
      d.entry v = none := by
    refine process.unmapped ?_ (not_lt.mp ((lt_pgroundup_iff v _).not.mpr (by omega)))
    unfold userPages kernbase pgSize at *
    omega
  refine ((allocuvm_returns (Nat.lt_of_not_le large) process.free process.freeRam unmapped
    (by omega)).and (allocuvm_ok image.kernel)).mono fun r a' result => ?_
  obtain ⟨result, kept, kernel, -⟩ := result
  have hold (mem : ∀ q ∉ a.freelist, a'.mem q = a.mem q) : Hold a₀ r.2.pages a' := by
    refine ⟨kept.trans image.hold.pages, fun q other => ?_⟩
    rw [mem q fun member => other (image.hold.listed (mem_add.mpr (.inl member))),
      image.hold.mem q other]
  rcases result with ⟨grown, grows⟩ | ⟨zero, entries, mem⟩
  · refine ⟨fun wrong => by omega, fun _ => ?_⟩
    rw [grown]
    have inside : pgroundup newsz / pgSize ≤ uintSize / pgSize - 1 := by
      unfold pgroundup kernbase uintSize pgSize at *
      omega
    have resized : Resized (newsz - sz) d r.2 a a' sz newsz :=
      process.resized_of_grows (by omega) (by omega) grows
    refine ⟨⟨hold grows.mem, kernel, Nat.le_of_not_le large, resized.exact, ?_⟩, by omega,
      Nat.lt_of_not_le large, fun v low high => ?_⟩
    · rw [grows.old _ (by omega)]
      exact image.top
    · obtain ⟨q, mapped, -⟩ := resized.zero v low high
      exact ⟨q, mapped⟩
  · exact ⟨fun _ => image.congr (hold mem) kernel fun v => by rw [entries],
      fun wrong => absurd zero wrong⟩

/-- `clearpteu` of a page of the image. -/
theorem clearpteu_image {sz va : Nat} (image : Image a₀ d sz a) (below : va < kernbase)
    (mapped : (d.entry (va / pgSize)).isSome) :
    Returns (clearpteu d va) (fun d' a' => a' = a ∧ Image a₀ d' sz a ∧
      d'.user (va / pgSize) = none ∧ ∀ v, v ≠ va / pgSize → d'.entry v = d.entry v) a := by
  have page := div_lt_userPages below
  rw [entry_va] at mapped
  cases table : d.table (pdx va) with
  | none => exact absurd mapped (by rw [table]; simp)
  | some t =>
    have safe := clearpteu_ok image.kernel below (a := a)
    rw [clearpteu, table] at safe ⊢
    obtain ⟨-, pages, kernel⟩ := safe
    have entries := entry_setPte (isSome_of_eq_some table)
      ((t.pte (ptx va)).map fun pte => { pte with perm := ⟨pte.perm.write, false⟩ })
    refine ⟨rfl, image.congr (pages ▸ image.hold) kernel fun v => ?_, ?_, fun v other => ?_⟩
    · by_cases here : v = va / pgSize
      · rw [here, entries, update_self, isSome_map, entry_of_table table]
      · rw [entries, update_of_ne here]
    · rw [user, entries, update_self]
      cases t.pte (ptx va) <;> rfl
    · rw [entries, update_of_ne other]

/-! ### Copying an address space -/

/-- The pages of `src` below a page have been copied, with their flags. -/
structure Copied (a₀ : Alloc) (src : PageDir) (stop : Nat) (d : PageDir) (a : Alloc) : Prop where
  hold : Hold a₀ d.pages a
  kernel : d.KernelOnly
  copied : ∀ v < stop, ∀ pte, src.entry v = some pte →
    ∃ q, d.entry v = some ⟨q, pte.perm⟩ ∧ a.mem q = a₀.mem pte.page
  exact : ∀ v < userPages, (d.entry v).isSome ↔ v < stop
  top : (d.entry (uintSize / pgSize - 1)).isSome

/-- One page more. -/
theorem Copied.page {stop : Nat} (copied : Copied a₀ src stop d a) (below : stop < userPages)
    (kernel : d'.KernelOnly) (found : src.entry stop = some pte)
    (entries : d'.entry = update d.entry stop (some ⟨q, pte.perm⟩)) (fresh : q ∉ d.pages)
    (hold : Hold a₀ d'.pages a') (mem : a'.mem = update a.mem q (a₀.mem pte.page)) :
    Copied a₀ src (stop + 1) d' a' where
  hold := hold
  kernel := kernel
  copied v low other mapped := by
    by_cases here : v = stop
    · subst here
      obtain rfl := Option.some.inj (found.symm.trans mapped)
      exact ⟨q, by rw [entries, update_self], by rw [mem, update_self]⟩
    · obtain ⟨r, same, bytes⟩ := copied.copied v (by omega) other mapped
      have apart : r ≠ q := by
        rintro rfl
        exact fresh (mem_pages (show v < userPages by omega) same)
      exact ⟨r, by rw [entries, update_of_ne here, same],
        by rw [mem, update_of_ne apart, bytes]⟩
  exact v low := by
    by_cases here : v = stop
    · rw [entries, here, update_self]
      simp
    · rw [entries, update_of_ne here, copied.exact v low]
      omega
  top := by
    rw [entries, update_of_ne]
    · exact copied.top
    · unfold userPages kernbase uintSize pgSize at *
      omega

theorem copyLoop_copied {sz n start : Nat} (pool : Pool layout a₀)
    (process : Process layout src a₀ sz) (aligned : start % pgSize = 0)
    (inside : 0 < n → start + n * pgSize < sz + pgSize)
    (copied : Copied a₀ src (start / pgSize) d a) :
    Returns (copyLoop layout src n d start) (fun r a' => (r = none → Hold a₀ 0 a') ∧
      ∀ d', r = some d' → Copied a₀ src (start / pgSize + n) d' a') a := by
  induction n generalizing d start a with
  | zero =>
    refine ⟨by simp, fun d' same => ?_⟩
    cases same
    exact copied
  | succ n ih =>
    have bound := inside (Nat.succ_pos n)
    rw [Nat.succ_mul] at bound
    have small := process.small
    have address : start / pgSize * pgSize = start :=
      Nat.div_mul_cancel (Nat.dvd_of_mod_eq_zero aligned)
    have page : start / pgSize < userPages := div_lt_userPages (by omega)
    have mapped := (process.exact (start / pgSize) page).mpr
      ((lt_size_iff _ sz).mp (by omega))
    obtain ⟨pte, found⟩ := isSome_iff_exists.mp mapped
    obtain ⟨t, table, entry⟩ := bind_eq_some_iff.mp found
    rw [← pdx] at table
    rw [← ptx] at entry
    have unmapped : d.entry (start / pgSize) = none := by
      rw [← not_isSome_iff_eq_none, copied.exact _ page]
      omega
    rw [copyLoop, table]
    dsimp only
    rw [entry]
    dsimp only
    rw [Returns, ok_bind]
    refine kalloc_hold copied.hold (fun a₁ hold _ => ?_) fun q a₁ hold same => ?_
    · dsimp only
      rw [ok_bind]
      refine (freevm_hold pool (by rwa [zero_add])).mono fun _ a₂ freed => ?_
      exact ⟨fun _ => freed, by simp⟩
    · have listed : q ∈ a₀.freelist := hold.listed
        (mem_add.mpr (.inr (mem_add.mpr (.inr (Multiset.mem_singleton_self q)))))
      have fresh : q ∉ d.pages := by
        have whole : a₀.free.Nodup := coe_nodup.mpr pool.nodup
        rw [← hold.pages, nodup_add] at whole
        exact fun member => Multiset.disjoint_left.mp (nodup_add.mp whole.2.1).2.2 member
          (Multiset.mem_singleton_self q)
      have bytes : a₁.mem pte.page = a₀.mem pte.page :=
        hold.mem _ (process.apart _ page pte found)
      dsimp only
      rw [ok_bind, ok_modify, ok_bind]
      have hold' : Hold a₀ (d.pages + {q})
          { a₁ with mem := update a₁.mem q (a₁.mem pte.page) } := by
        refine ⟨hold.pages, fun r other => ?_⟩
        have apart : r ≠ q := fun equal => other (equal ▸ listed)
        exact (update_of_ne apart _ _).trans (hold.mem r other)
      refine (mappages_hold aligned (by omega) unmapped copied.kernel hold').mono
        fun r a₂ after => ?_
      obtain ⟨all, d'⟩ := r
      obtain ⟨mem, only, entries, hold₂⟩ := after
      cases all with
      | false =>
        simp only [ok_bind]
        rw [if_neg Bool.false_ne_true] at hold₂
        refine (kfree_hold pool hold₂).mono fun _ a₃ freed => ?_
        refine (freevm_hold pool (by rwa [zero_add])).mono fun _ a₄ last => ?_
        exact ⟨fun _ => last, by simp⟩
      | true =>
        rw [if_pos rfl] at entries
        rw [if_pos rfl, add_zero] at hold₂
        have next : (start + pgSize) / pgSize = start / pgSize + 1 :=
          Nat.add_div_right start (by decide)
        have further := copied.page page only found entries fresh hold₂
          (by rw [mem]; dsimp only; rw [bytes, same])
        rw [← next] at further
        refine (ih (by rw [Nat.add_mod_right, aligned]) (fun more => by omega) further).mono
          fun r a₃ after => ?_
        rwa [next, add_right_comm] at after

/-- `copyuvm` of a process with exactly the pages below its size: a copy of them, with their bytes
and flags. -/
theorem copyuvm_image {sz : Nat} (fit : layout.Fit) (pool : Pool layout a₀)
    (process : Process layout src a₀ sz) :
    Returns (copyuvm layout src sz) (fun r a => (r = none → Hold a₀ 0 a) ∧
      ∀ d, r = some d → Image a₀ d sz a ∧ ∀ v < userPages, ∀ pte, src.entry v = some pte →
        ∃ q, d.entry v = some ⟨q, pte.perm⟩ ∧ a.mem q = a₀.mem pte.page) a₀ := by
  rw [copyuvm, Returns, ok_bind]
  refine (setupkvm_image fit pool).mono fun r a made => ?_
  cases r with
  | none => exact ⟨fun _ => made.1 rfl, by simp⟩
  | some d =>
    have image := made.2 d rfl
    have start : Copied a₀ src (0 / pgSize) d a :=
      ⟨image.hold, image.kernel, fun v low => absurd low (by simp), fun v below => by
        rw [image.exact v below]
        unfold pgroundup pgSize
        omega, image.top⟩
    refine (copyLoop_copied pool process (Nat.zero_mod _) (fun left => add_turns_lt left)
      start).mono fun r a' after => ⟨after.1, fun d' found => ?_⟩
    have copied := after.2 d' found
    have stop (v : Nat) : v < 0 / pgSize + turns 0 sz ↔ v * pgSize < pgroundup sz := by
      unfold turns pgroundup pgSize
      omega
    refine ⟨⟨copied.hold, copied.kernel, process.small, fun v below => ?_, copied.top⟩,
      fun v below pte mapped => ?_⟩
    all_goals grind [cases Process, cases Copied]

end Xv6.Vm
