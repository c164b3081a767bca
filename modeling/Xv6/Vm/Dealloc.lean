import Xv6.Vm.Pages

/-!
# `deallocuvm` page by page

Where a page table is missing, `deallocuvm` sets `a` to the last page that the table would map, so
that the increment of the loop leads to the next table. The loop in the code's 32-bit arithmetic
is compared with one that looks at every page of the interval in turn: they return the same, or
both panic in `kfree`. The page-by-page loop then says which pages are freed.
-/

namespace Xv6.Vm

open Function Lib Act List

/-- A page that `kfree` takes. -/
def Layout.IsRam (layout : Layout) (v : Page) : Prop :=
  v ≠ 0 ∧ layout.kernelEnd ≤ v * pgSize ∧ v * pgSize < layout.phystop

instance (layout : Layout) (v : Page) : Decidable (layout.IsRam v) :=
  inferInstanceAs (Decidable (_ ∧ _ ∧ _))

variable (layout : Layout)

/-- `PGADDR`. -/
def pgaddr (d t o : Nat) : Nat := (d <<< 22 ||| t <<< 12 ||| o) % uintSize

/-- The loop of `deallocuvm` as the machine computes it; nothing if it takes more turns than the
bound. -/
def deallocWords (oldsz : Nat) : Nat → PageDir → Nat → AllocM (Option PageDir)
  | 0, _, _ => return none
  | fuel + 1, d, a =>
    if a < oldsz then
      match d.table (pdx a) with
      | none =>
        let a := (pgaddr (pdx a + 1) 0 0 + uintSize - pgSize) % uintSize
        deallocWords oldsz fuel d ((a + pgSize) % uintSize)
      | some t =>
        match t.pte (ptx a) with
        | none => deallocWords oldsz fuel d ((a + pgSize) % uintSize)
        | some pte => do
          if pte.page = 0 then throw .kfree
          else
            kfree layout pte.page
            deallocWords oldsz fuel (d.setPte a none) ((a + pgSize) % uintSize)
    else return some d

/-- `deallocuvm` as the machine computes it, with `PGROUNDUP` as a sum and a mask. -/
def deallocuvmWords (fuel : Nat) (d : PageDir) (oldsz newsz : Nat) :
    AllocM (Option (Nat × PageDir)) := do
  if newsz ≥ oldsz then return some (oldsz, d)
  else
    let start := pgrounddown ((newsz + pgSize - 1) % uintSize)
    let d ← deallocWords layout oldsz fuel d start
    return d.map (newsz, ·)

/-- The frames that a directory has behind a list of virtual pages. -/
def PageDir.frames (d : PageDir) (pages : List Nat) : List Page :=
  pages.filterMap fun v => (d.entry v).map Pte.page

variable {layout} {d d' : PageDir} {start oldsz newsz fuel : Nat}

/-- No sum of the loop wraps while addresses stay within `KERNBASE`. -/
theorem deallocWords_eq (small : oldsz ≤ kernbase) (aligned : start % pgSize = 0)
    (enough : oldsz ≤ start + fuel * pgSize) {more : Nat} (bound : fuel < more) :
    deallocWords layout oldsz more d start = some <$> deallocLoop layout oldsz fuel d start := by
  obtain ⟨more, rfl⟩ := Nat.exists_eq_succ_of_ne_zero (Nat.ne_zero_of_lt bound)
  induction fuel generalizing d start more with
  | zero =>
    rw [deallocWords, if_neg (by omega), deallocLoop, map_pure]
  | succ fuel ih =>
    rw [deallocWords, deallocLoop]
    split
    case isFalse done => rw [map_pure]
    case isTrue inside =>
    rw [Nat.succ_mul] at enough
    obtain ⟨more, rfl⟩ := Nat.exists_eq_succ_of_ne_zero (n := more) (by omega)
    have aligned' : (start + pgSize) % pgSize = 0 := by rw [Nat.add_mod_right, aligned]
    have next : (start + pgSize) % uintSize = start + pgSize :=
      Nat.mod_eq_of_lt (by unfold kernbase uintSize pgSize at *; omega)
    have following := fun d => ih (d := d) aligned' (by omega) more (by omega)
    cases table : d.table (pdx start) with
    | none =>
      obtain ⟨-, further⟩ := next_table start aligned
      have lands : ((pgaddr (pdx start + 1) 0 0 + uintSize - pgSize) % uintSize + pgSize) %
          uintSize = (pdx start + 1) * nPtEntries * pgSize := by
        have index : pdx start < 512 := by
          unfold pdx nPtEntries pgSize kernbase at *
          omega
        have table : pgaddr (pdx start + 1) 0 0 = (pdx start + 1) * nPtEntries * pgSize := by
          rw [pgaddr, Nat.zero_shiftLeft, Nat.or_zero, Nat.or_zero, Nat.shiftLeft_eq, mul_assoc]
          refine Nat.mod_eq_of_lt ?_
          unfold uintSize
          omega
        rw [table]
        unfold nPtEntries uintSize pgSize at *
        omega
      dsimp only
      rw [lands]
      exact ih (Nat.mul_mod_left _ _) (by omega) more (by omega)
    | some t =>
      dsimp only
      rw [next]
      cases t.pte (ptx start) with
      | none => exact following d
      | some pte =>
        dsimp only
        split
        · rfl
        · rw [following, map_bind]

/-- The present pages among a list have been freed, each once, and their entries cleared; every
other entry, the page tables and the bytes of other pages are as before. -/
structure Frees (pages : List Nat) (d d' : PageDir) (a a' : Alloc) : Prop where
  free : a'.freelist = (d.frames pages).reverse ++ a.freelist
  mem : ∀ q ∉ d.frames pages, a'.mem q = a.mem q
  entry : ∀ v, d'.entry v = if v ∈ pages then none else d.entry v
  page : d'.page = d.page
  tables : ∀ i, (d'.table i).map PageTable.page = (d.table i).map PageTable.page

/-- `kfree` takes every present page of a list. -/
def AllRam (layout : Layout) (d : PageDir) (pages : List Nat) : Prop :=
  ∀ v ∈ pages, ∀ pte, d.entry v = some pte → layout.IsRam pte.page

variable {pages : List Nat} {a a' : Alloc} {v : Nat} {pte : Pte}

/-- A page that is not present adds nothing. -/
theorem Frees.cons_none (frees : Frees pages d d' a a') (absent : d.entry v = none) :
    Frees (v :: pages) d d' a a' := by
  have frames : d.frames (v :: pages) = d.frames pages :=
    List.filterMap_cons_none (by rw [absent]; rfl)
  refine ⟨?_, ?_, fun w => ?_, frees.page, frees.tables⟩
  · rw [frames, frees.free]
  · rw [frames]
    exact frees.mem
  · rw [frees.entry]
    grind

/-- A present page is freed and cleared before the others. -/
theorem Frees.cons_some (fresh : v ∉ pages) (found : d.entry v = some pte)
    (frees : Frees pages (d.setPte (v * pgSize) none) d'
      { a.fill pte.page 1 with freelist := pte.page :: a.freelist } a') :
    Frees (v :: pages) d d' a a' := by
  obtain ⟨-, cleared⟩ := entry_clear found
  have frames : d.frames (v :: pages) =
      pte.page :: (d.setPte (v * pgSize) none).frames pages := by
    rw [PageDir.frames, List.filterMap_cons_some (b := pte.page) (by rw [found]; rfl)]
    refine congrArg _ (filterMap_congr fun w member => ?_)
    rw [cleared, update_of_ne (ne_of_mem_of_not_mem member fresh)]
  refine ⟨?_, fun q unused => ?_, fun w => ?_, frees.page, fun i => ?_⟩
  · rw [frames, frees.free, reverse_cons, append_assoc]
    rfl
  · rw [frames, mem_cons, not_or] at unused
    rw [frees.mem q unused.2]
    exact update_of_ne unused.1 _ _
  · rw [frees.entry, cleared]
    grind
  · rw [frees.tables, PageDir.setPte_table]
    by_cases same : i = pdx (v * pgSize)
    · subst same
      rw [update_self, Option.map_map]
      rfl
    · rw [update_of_ne same]

/-- A page-by-page loop over distinct pages frees them, and panics only if `kfree` refuses one. -/
theorem pageLoop_ok (distinct : pages.Nodup) :
    Ok (fun error => error = .kfree ∧ ¬ AllRam layout d pages) (pageLoop layout pages d)
      (fun d' a' => AllRam layout d pages ∧ Frees pages d d' a a') a := by
  induction pages generalizing d a with
  | nil => exact ⟨nofun, rfl, fun q _ => rfl, fun v => rfl, rfl, fun i => rfl⟩
  | cons v pages ih =>
    obtain ⟨fresh, distinct⟩ := List.nodup_cons.mp distinct
    rw [pageLoop]
    cases found : d.entry v with
    | none =>
      have all : AllRam layout d (v :: pages) ↔ AllRam layout d pages := by simp [AllRam, found]
      rw [all]
      exact (ih distinct).mono fun d' a' after => ⟨after.1, after.2.cons_none found⟩
    | some pte =>
      have refused : ¬ layout.IsRam pte.page → ¬ AllRam layout d (v :: pages) :=
        fun bad all => bad (all v (mem_cons_self ..) pte found)
      dsimp only
      rw [ok_ite]
      by_cases zero : pte.page = 0
      · rw [if_pos zero]
        exact ⟨rfl, refused fun ram => ram.1 zero⟩
      rw [if_neg zero, ok_bind, kfree, ok_ite]
      by_cases outside : pte.page * pgSize < layout.kernelEnd ∨ pte.page * pgSize ≥ layout.phystop
      · rw [if_pos outside]
        refine ⟨rfl, refused fun ram => ?_⟩
        exact outside.elim (not_lt.mpr ram.2.1) (not_le.mpr ram.2.2)
      rw [if_neg outside, ok_modify]
      obtain ⟨above, below⟩ := not_or.mp outside
      have isRam : layout.IsRam pte.page := ⟨zero, not_lt.mp above, not_le.mp below⟩
      have all : AllRam layout d (v :: pages) ↔
          AllRam layout (d.setPte (v * pgSize) none) pages := by
        rw [AllRam, forall_mem_cons, AllRam, (entry_clear found).2]
        refine (and_iff_right (by simpa [found] using isRam)).trans
          (forall₂_congr fun w member => ?_)
        rw [update_of_ne (ne_of_mem_of_not_mem member fresh)]
      rw [all]
      exact (ih distinct).mono fun d' a' after => ⟨after.1, after.2.cons_some fresh found⟩

/-- For every directory and every two sizes within `KERNBASE`, `deallocuvm` as the machine computes
it ends within as many turns as there are pages in the interval and one more, and without a sum
that wraps; it equals the page-by-page loop over the pages from `PGROUNDUP(newsz)` to `oldsz`. So
it frees the frame behind each present page of the interval once, clears its entry and leaves
every other entry and every page table. Only a frame that `kfree` refuses stops it. -/
theorem deallocuvm_page_by_page (layout : Layout) (d : PageDir) (less : newsz < oldsz)
    (small : oldsz ≤ kernbase) :
    let pages := pagesFrom (pgroundup newsz) oldsz
    (∀ v, v ∈ pages ↔ pgroundup newsz ≤ v * pgSize ∧ v * pgSize < oldsz) ∧ pages.Nodup ∧
    (∀ fuel, pages.length < fuel → deallocuvmWords layout fuel d oldsz newsz =
      some <$> deallocuvm layout d oldsz newsz) ∧
    deallocuvm layout d oldsz newsz = (newsz, ·) <$> pageLoop layout pages d ∧
    ∀ a, Ok (fun error => error = .kfree ∧ ¬ AllRam layout d pages)
      (deallocuvm layout d oldsz newsz)
      (fun r a' => AllRam layout d pages ∧ r.1 = newsz ∧ Frees pages d r.2 a a') a := by
  intro pages
  have aligned := pgroundup_mod newsz
  have distinct : pages.Nodup := List.nodup_range'
  have plain : deallocuvm layout d oldsz newsz = (newsz, ·) <$> pageLoop layout pages d := by
    rw [deallocuvm, if_neg (not_le.mpr less), deallocLoop_eq_pageLoop aligned
      (le_add_turns _ _), map_eq_pure_bind]
  refine ⟨mem_pagesFrom aligned, distinct, fun fuel bound => ?_, plain, fun a => ?_⟩
  · have rounded : pgrounddown ((newsz + pgSize - 1) % uintSize) = pgroundup newsz := by
      rw [Nat.mod_eq_of_lt (by unfold kernbase uintSize pgSize at *; omega)]
      rfl
    have enough : turns (pgroundup newsz) oldsz < fuel :=
      lt_of_eq_of_lt List.length_range'.symm bound
    rw [deallocuvmWords, if_neg (not_le.mpr less), deallocuvm, if_neg (not_le.mpr less)]
    dsimp only
    rw [rounded, deallocWords_eq small aligned (le_add_turns _ _) enough]
    simp only [map_eq_pure_bind, bind_assoc, pure_bind, Option.map_some]
  · rw [plain, map_eq_pure_bind, ok_bind]
    exact (pageLoop_ok distinct).mono fun d' a' after => ⟨after.1, rfl, after.2⟩

/-- The first page table is missing; the second has one page. -/
def PageDir.gap : PageDir where
  page := 300
  table := update (fun _ => none) 1
    (some ⟨301, update (fun _ => none) 0 (some ⟨302, userPerm⟩)⟩)

/-- From an address in the missing table to one byte into the next. -/
theorem deallocuvm_page_by_page_gap :
    5000 < 0x400001 ∧ 0x400001 ≤ kernbase ∧ PageDir.gap.frames [1024] = [302] ∧
    let layout := linked 0x110000 0x80108000 [] (by decide) (by decide) (by decide)
    deallocuvm layout .gap 0x400001 5000 =
      (5000, ·) <$> pageLoop layout (pagesFrom (pgroundup 5000) 0x400001) .gap :=
  ⟨by decide, by decide, rfl, (deallocuvm_page_by_page _ .gap (by decide) (by decide)).2.2.2.1⟩

end Xv6.Vm
