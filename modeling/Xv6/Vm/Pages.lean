import Xv6.Lib.Tally
import Xv6.Vm.Space

/-!
# Where the functions of `vm.c` leave the pages

The pages of a directory are the one that holds it, those of its page tables, and those mapped
below `KERNBASE`. For each function: the free pages and the pages of the directories it takes are
the free pages and the pages of the directories it returns, on every path that returns. Entries
above `KERNBASE` are never for users.
-/

namespace Xv6.Vm

open Function Lib Act Multiset List Option

/-- The code keeps to a condition unless it panics. -/
abbrev Safe {σ α : Type} (act : Act σ Panic α) (post : α → σ → Prop) (state : σ) : Prop :=
  Ok (fun _ => True) act post state

/-- The code returns and keeps to a condition. -/
abbrev Returns {σ α : Type} (act : Act σ Panic α) (post : α → σ → Prop) (state : σ) : Prop :=
  Ok (fun _ => False) act post state

/-- The page a pointer refers to. -/
def onePage (page : Option Page) : Multiset Page := page.elim 0 fun q => {q}

/-- The page that holds a page table. -/
def tablePage (table : Option PageTable) : Multiset Page := onePage (table.map PageTable.page)

/-- The page an entry maps. -/
def ptePage (pte : Option Pte) : Multiset Page := onePage (pte.map Pte.page)

@[simp] theorem onePage_none : onePage none = 0 := rfl

@[simp] theorem onePage_some (q : Page) : onePage (some q) = {q} := rfl

@[simp] theorem tablePage_none : tablePage none = 0 := rfl

@[simp] theorem tablePage_some (t : PageTable) : tablePage (some t) = {t.page} := rfl

@[simp] theorem ptePage_none : ptePage none = 0 := rfl

@[simp] theorem ptePage_some (pte : Pte) : ptePage (some pte) = {pte.page} := rfl

/-- The free pages. -/
def Alloc.free (a : Alloc) : Multiset Page := a.freelist

namespace PageDir

/-- The page-table pages. -/
def tables (d : PageDir) : Multiset Page := tally nPdEntries tablePage d.table

/-- The pages mapped below `KERNBASE`. -/
def users (d : PageDir) : Multiset Page := tally userPages ptePage d.entry

/-- All pages of an address space. -/
def pages (d : PageDir) : Multiset Page := {d.page} + d.tables + d.users

/-- Entries above `KERNBASE` are not for users. -/
def KernelOnly (d : PageDir) : Prop :=
  ∀ v, userPages ≤ v → ∀ pte, d.entry v = some pte → pte.perm.user = false

variable {d d' : PageDir} {va : Nat}

theorem entry_va : d.entry (va / pgSize) = (d.table (pdx va)).bind fun t => t.pte (ptx va) := rfl

theorem entry_of_table {t : PageTable} (table : d.table (pdx va) = some t) :
    d.entry (va / pgSize) = t.pte (ptx va) := by
  rw [entry_va, table]
  rfl

/-- A directory without tables has its own page only. -/
theorem pages_empty (page : Page) : (empty page).pages = {page} := by
  have tables : (empty page).tables = 0 := tally_eq_zero fun _ _ => rfl
  have users : (empty page).users = 0 := tally_eq_zero fun _ _ => rfl
  rw [pages, tables, users]
  rfl

theorem setPte_table (pte : Option Pte) :
    (d.setPte va pte).table = update d.table (pdx va) ((d.table (pdx va)).map fun t =>
      { t with pte := update t.pte (ptx va) pte }) := rfl

theorem addTable_table (page : Page) :
    (d.addTable va page).table =
      update d.table (pdx va) (some ⟨page, fun _ => none⟩) := rfl

theorem entry_setPte (present : (d.table (pdx va)).isSome) (pte : Option Pte) :
    (d.setPte va pte).entry = update d.entry (va / pgSize) pte := by
  obtain ⟨t, table⟩ := isSome_iff_exists.mp present
  funext v
  by_cases here : v = va / pgSize
  · subst here
    rw [update_self, entry_va, setPte_table, update_self, table]
    exact update_self ..
  · rw [update_of_ne here]
    rw [entry, entry, setPte_table]
    grind [nPtEntries, pdx, ptx]

theorem entry_addTable (absent : d.table (pdx va) = none) (page : Page) :
    (d.addTable va page).entry = d.entry := by
  funext v
  rw [entry, entry, addTable_table]
  by_cases same : v / nPtEntries = pdx va
  · rw [same, update_self, absent]
    rfl
  · rw [update_of_ne same]

theorem tables_setPte (pte : Option Pte) : (d.setPte va pte).tables = d.tables := by
  apply tally_same
  cases d.table (pdx va) <;> rfl

theorem tables_addTable (absent : d.table (pdx va) = none) (inside : pdx va < nPdEntries)
    (page : Page) : (d.addTable va page).tables = d.tables + {page} := by
  obtain ⟨rest, before, after⟩ := tally_split inside tablePage d.table
  rw [tables, tables, addTable_table, after, before, absent, tablePage_none, tablePage_some]
  rw [zero_add, add_comm]

/-- Below `KERNBASE`, assigning an entry exchanges the page it maps. -/
theorem users_setPte (present : (d.table (pdx va)).isSome) (below : va / pgSize < userPages)
    (pte : Option Pte) :
    (d.setPte va pte).users + ptePage (d.entry (va / pgSize)) = d.users + ptePage pte := by
  obtain ⟨rest, before, after⟩ := tally_split below ptePage d.entry
  rw [users, users, entry_setPte present, after, before]
  grind

/-- What is mapped below `KERNBASE` decides the pages there. -/
theorem users_congr (same : ∀ v < userPages, d'.entry v = d.entry v) : d'.users = d.users :=
  tally_congr fun v below => by rw [same v below]

theorem users_eq_zero (unmapped : ∀ v < userPages, d.entry v = none) : d.users = 0 :=
  tally_eq_zero fun v below => by rw [unmapped v below, ptePage_none]

theorem KernelOnly.congr (kernel : d.KernelOnly)
    (same : ∀ v, userPages ≤ v → d'.entry v = d.entry v) : d'.KernelOnly :=
  fun v above pte found => kernel v above pte (same v above ▸ found)

end PageDir

/-- The page of a user address. -/
theorem div_lt_userPages {va : Nat} (below : va < kernbase) : va / pgSize < userPages :=
  Nat.div_lt_of_lt_mul below

/-- The address of a user page. -/
theorem mul_lt_kernbase {v : Nat} (below : v < userPages) : v * pgSize < kernbase :=
  Nat.mul_lt_mul_of_pos_right below (by decide)

/-! ### Allocating and freeing -/

variable {layout : Layout} {a : Alloc} {d src : PageDir} {va v newsz sz n : Nat} {perm : Perm}
  {panics : Panic → Prop}

theorem kalloc_returns {post : Option Page → Alloc → Prop}
    (refused : post none { a with refused := a.refused.tail })
    (given : ∀ r next, a.freelist = r :: next →
      post (some r) { a with freelist := next, refused := a.refused.tail }) :
    Ok panics kalloc post a := by
  grind [kalloc, ok_bind, ok_get, ok_set, ok_pure]

theorem Alloc.free_of_list {r : Page} {next : List Page} (list : a.freelist = r :: next) :
    (next : Multiset Page) + {r} = a.free := by
  rw [Alloc.free, list, ← cons_coe, ← singleton_add, add_comm]

theorem kalloc_ok : Ok panics kalloc (fun r later => later.free + onePage r = a.free) a :=
  kalloc_returns (add_zero _) fun _ _ list => Alloc.free_of_list list

theorem kfree_ok (v : Page) :
    Safe (kfree layout v) (fun _ later => later.free = a.free + {v}) a := by
  unfold kfree
  simp only [ok_ite, ok_throw, ok_modify]
  split
  · trivial
  · change (↑(v :: a.freelist) : Multiset Page) = _
    rw [← cons_coe, ← singleton_add, add_comm]
    rfl

/-- The allocator has given pages out and nothing else. -/
structure Took (a a' : Alloc) : Prop where
  free : a'.freelist <:+ a.freelist
  mem : a'.mem = a.mem

theorem walkAlloc_ok (inside : va < uintSize) :
    Ok panics (walkAlloc d va) (fun r later => Took a later ∧
      match r with
      | none => later.free = a.free
      | some d' => later.free + d'.pages = a.free + d.pages ∧ d'.entry = d.entry ∧
          (d'.table (pdx va)).isSome) a := by
  unfold walkAlloc
  cases table : d.table (pdx va) with
  | some t => exact ⟨⟨suffix_rfl, rfl⟩, rfl, rfl, by rw [table]; rfl⟩
  | none =>
    rw [ok_bind]
    refine kalloc_returns ⟨⟨suffix_rfl, rfl⟩, rfl⟩ fun page next list => ?_
    have index : pdx va < nPdEntries := by
      unfold pdx nPdEntries nPtEntries pgSize
      unfold uintSize at inside
      omega
    have same := PageDir.entry_addTable table page
    refine ⟨⟨by rw [list]; exact suffix_cons _ _, rfl⟩, ?_, same, ?_⟩
    · have users : (d.addTable va page).users = d.users :=
        PageDir.users_congr fun v _ => congrFun same v
      rw [PageDir.pages, PageDir.pages, users, PageDir.tables_addTable table index,
        ← Alloc.free_of_list list]
      change (next : Multiset Page) + ({d.page} + (d.tables + {page}) + d.users) = _
      grind
    · rw [PageDir.addTable_table, update_self]
      rfl

/-! ### Mapping -/

/-- Assigning an entry above `KERNBASE` moves no page. -/
theorem setPte_above (pte : Pte) (present : (d.table (pdx va)).isSome)
    (above : userPages ≤ va / pgSize) (privileged : pte.perm.user = false) (kernel : d.KernelOnly) :
    (d.setPte va (some pte)).pages = d.pages ∧ (d.setPte va (some pte)).KernelOnly ∧
      ∀ v < userPages, (d.setPte va (some pte)).entry v = d.entry v := by
  have same : ∀ v < userPages, (d.setPte va (some pte)).entry v = d.entry v := by
    intro v below
    rw [PageDir.entry_setPte present, update_of_ne (by omega)]
  refine ⟨?_, ?_, same⟩
  · rw [PageDir.pages, PageDir.pages, PageDir.users_congr same, PageDir.tables_setPte]
    rfl
  · intro v aboveToo pte' found
    rw [PageDir.entry_setPte present] at found
    grind [PageDir.KernelOnly]

/-- Assigning an entry below `KERNBASE` exchanges the page it maps. -/
theorem setPte_below (pte : Option Pte) (present : (d.table (pdx va)).isSome)
    (below : va / pgSize < userPages) :
    (d.setPte va pte).pages + ptePage (d.entry (va / pgSize)) = d.pages + ptePage pte ∧
      ∀ v, userPages ≤ v → (d.setPte va pte).entry v = d.entry v := by
  constructor
  · have exchanged := PageDir.users_setPte present below pte
    rw [PageDir.pages, PageDir.pages, PageDir.tables_setPte]
    change {d.page} + d.tables + (d.setPte va pte).users + _ = _
    grind
  · intro v above
    rw [PageDir.entry_setPte present, update_of_ne (by omega)]

/-- Mapping the kernel moves no page but those of new page tables. -/
theorem mapLoop_ok {pa : Nat} (privileged : perm.user = false)
    (inside : 0 < n → kernbase ≤ va ∧ va + n * pgSize ≤ uintSize) (kernel : d.KernelOnly)
    (remap : ∀ v, va / pgSize ≤ v → v < va / pgSize + n → d.entry v ≠ none → panics .remap) :
    Ok panics (mapLoop perm n d va pa) (fun r later => Took a later ∧
      later.free + r.2.pages = a.free + d.pages ∧ r.2.KernelOnly ∧
      (∀ v, ¬(va / pgSize ≤ v ∧ v < va / pgSize + n) → r.2.entry v = d.entry v) ∧
      (r.1 = true → ∀ v, va / pgSize ≤ v → v < va / pgSize + n → (r.2.entry v).isSome)) a := by
  induction n generalizing d va pa a with
  | zero =>
    exact ⟨⟨suffix_rfl, rfl⟩, rfl, kernel, fun _ _ => rfl,
      fun _ v low high => absurd high (by omega)⟩
  | succ n ih =>
    obtain ⟨above, fits⟩ := inside (Nat.succ_pos n)
    rw [Nat.succ_mul] at fits
    rw [mapLoop, ok_bind]
    refine (walkAlloc_ok (by unfold pgSize at fits; omega)).mono fun r later walked => ?_
    cases r with
    | none => exact ⟨walked.1, by rw [walked.2], kernel, fun _ _ => rfl, nofun⟩
    | some d' =>
      obtain ⟨took, kept, entries, present⟩ := walked
      have kernel' : d'.KernelOnly := kernel.congr fun v _ => congrFun entries v
      rw [ok_ite, entries]
      split
      · rename_i mapped
        exact remap _ le_rfl (by omega) (isSome_iff_ne_none.mp mapped)
      have page : userPages ≤ va / pgSize := Nat.div_le_div_right above
      obtain ⟨pages, only, -⟩ := setPte_above ⟨pa / pgSize, perm⟩ present page privileged kernel'
      have mapped := PageDir.entry_setPte present (some ⟨pa / pgSize, perm⟩)
      rw [entries] at mapped
      -- The address wraps at most after the last page.
      have next : 0 < n → (va + pgSize) % uintSize = va + pgSize := fun more => by
        have one := Nat.mul_le_mul_right pgSize more
        have positive : 0 < pgSize := by decide
        exact Nat.mod_eq_of_lt (by omega)
      have step : 0 < n → (va + pgSize) % uintSize / pgSize = va / pgSize + 1 := fun more => by
        rw [next more]
        exact Nat.add_div_right va (by decide)
      refine (ih ?_ only fun v low high other => ?_).mono fun r later' after => ?_
      · intro more
        rw [next more]
        omega
      · have more : 0 < n := by omega
        rw [step more] at low high
        rw [mapped, update_of_ne (by omega)] at other
        exact remap v (by omega) (by omega) other
      · obtain ⟨took', moved, onlyAfter, others, all⟩ := after
        refine ⟨⟨took'.free.trans took.free, took'.mem.trans took.mem⟩,
          by rw [moved, pages, kept], onlyAfter, fun v other => ?_, fun whole v low high => ?_⟩
        · rw [others v (by grind), mapped, update_of_ne (by omega)]
        · by_cases here : v = va / pgSize
          · rw [others v (by grind), here, mapped, update_self]
            rfl
          · exact all whole v (by grind) (by grind)

/-- The last page of a range of one page. -/
theorem pgrounddown_last (aligned : va % pgSize = 0) (below : va < kernbase) :
    pgrounddown ((va + pgSize - 1) % uintSize) = va := by
  grind [pgSize, uintSize, kernbase, pgrounddown]

/-- Mapping one page for users. -/
theorem mappages_ok {mem : Page} (aligned : va % pgSize = 0) (below : va < kernbase)
    (remap : d.entry (va / pgSize) ≠ none → panics .remap) :
    Ok panics (mappages d va pgSize (mem * pgSize) perm) (fun r later => Took a later ∧
      later.free + r.2.pages = a.free + d.pages + (if r.1 then {mem} else 0) ∧
      (d.KernelOnly → r.2.KernelOnly) ∧
      r.2.entry = if r.1 then update d.entry (va / pgSize) (some ⟨mem, perm⟩) else d.entry) a := by
  have start : pgrounddown va = va := Nat.div_mul_cancel (Nat.dvd_of_mod_eq_zero aligned)
  have last := pgrounddown_last aligned below
  have once : (va + uintSize - va) % uintSize / pgSize + 1 = 1 := by
    rw [Nat.add_sub_cancel_left, Nat.mod_self, Nat.zero_div]
  have page := div_lt_userPages below
  rw [mappages, start, last, once, mapLoop, ok_bind]
  refine (walkAlloc_ok (Nat.lt_trans below (by decide))).mono fun r later walked => ?_
  cases r with
  | none =>
    exact ⟨walked.1, by rw [walked.2, if_neg Bool.false_ne_true, add_zero], id, rfl⟩
  | some d' =>
    obtain ⟨took, kept, entries, present⟩ := walked
    rw [ok_ite]
    split
    · rename_i mapped
      rw [entries] at mapped
      exact remap (isSome_iff_ne_none.mp mapped)
    rename_i unmapped
    obtain ⟨pages, above⟩ := setPte_below (some ⟨mem * pgSize / pgSize, perm⟩) present page
    have absent : d'.entry (va / pgSize) = none := by
      simpa using unmapped
    rw [absent, ptePage_none, add_zero, ptePage_some] at pages
    rw [Nat.mul_div_cancel _ (by decide)] at pages above ⊢
    refine ⟨took, ?_, fun kernel => (kernel.congr fun v _ => congrFun entries v).congr above, ?_⟩
    · change later.free + (d'.setPte va (some ⟨mem, perm⟩)).pages = _
      rw [pages, ← add_assoc, kept]
      rfl
    · rw [if_pos rfl, ← entries]
      exact PageDir.entry_setPte present _

/-! ### Unmapping -/

theorem pgroundup_mod (sz : Nat) : pgroundup sz % pgSize = 0 := Nat.mul_mod_left _ _

/-- The turns of a loop reach its limit. -/
theorem le_add_turns (start limit : Nat) : limit ≤ start + turns start limit * pgSize := by
  unfold turns pgSize
  omega

/-- The turns of a loop end within a page of its limit. -/
theorem add_turns_lt {start limit : Nat} (some : 0 < turns start limit) :
    start + turns start limit * pgSize < limit + pgSize := by
  unfold turns pgSize at *
  omega

/-- A loop that looks at every page of a list and frees those that are present. -/
def pageLoop (layout : Layout) : List Nat → PageDir → AllocM PageDir
  | [], d => return d
  | v :: pages, d =>
    match d.entry v with
    | none => pageLoop layout pages d
    | some pte => do
      if pte.page = 0 then throw .kfree
      else
        kfree layout pte.page
        pageLoop layout pages (d.setPte (v * pgSize) none)

/-- The virtual pages from an address to a size, in order. -/
def pagesFrom (start oldsz : Nat) : List Nat := List.range' (start / pgSize) (turns start oldsz)

/-- What a directory maps after everything from an address to a size is unmapped. -/
structure Unmaps (start oldsz : Nat) (d d' : PageDir) : Prop where
  cleared : ∀ v, start / pgSize ≤ v → v * pgSize < oldsz → d'.entry v = none
  same : ∀ v, v < start / pgSize ∨ userPages ≤ v → d'.entry v = d.entry v

/-- Without a page table, none of its pages is mapped. -/
theorem entry_of_no_table (absent : d.table (pdx va) = none) (first : va / pgSize ≤ v)
    (last : v < (pdx va + 1) * nPtEntries) : d.entry v = none := by
  grind [nPtEntries, pdx, PageDir.entry]

/-- The address behind a page table. -/
theorem next_table (start : Nat) (aligned : start % pgSize = 0) :
    (pdx start + 1) * nPtEntries * pgSize / pgSize = (pdx start + 1) * nPtEntries ∧
      start + pgSize ≤ (pdx start + 1) * nPtEntries * pgSize := by
  refine ⟨Nat.mul_div_cancel _ (by decide), ?_⟩
  unfold pdx nPtEntries pgSize at *
  omega

section Loop

variable {start oldsz fuel : Nat}

theorem mem_pagesFrom (aligned : start % pgSize = 0) (v : Nat) :
    v ∈ pagesFrom start oldsz ↔ start ≤ v * pgSize ∧ v * pgSize < oldsz := by
  rw [pagesFrom, List.mem_range'_1]
  unfold turns pgSize at *
  omega

theorem pagesFrom_done (done : oldsz ≤ start) : pagesFrom start oldsz = [] := by
  rw [pagesFrom, List.range'_eq_nil_iff]
  unfold turns pgSize
  omega

/-- The pages up to a later address come first. -/
theorem pagesFrom_append {skip : Nat} (more : skip ≤ turns start oldsz) :
    pagesFrom start oldsz =
      List.range' (start / pgSize) skip ++ pagesFrom (start + skip * pgSize) oldsz := by
  have later : (start + skip * pgSize) / pgSize = start / pgSize + skip :=
    Nat.add_mul_div_right _ _ (by decide)
  have left : turns start oldsz = skip + turns (start + skip * pgSize) oldsz := by
    unfold turns pgSize at *
    omega
  rw [pagesFrom, pagesFrom, later, left, List.range'_append_1]

/-- A page-by-page loop passes over pages that are not present. -/
theorem pageLoop_append (absent pages : List Nat) (unmapped : ∀ v ∈ absent, d.entry v = none) :
    pageLoop layout (absent ++ pages) d = pageLoop layout pages d := by
  induction absent with
  | nil => rfl
  | cons v absent ih =>
    rw [cons_append, pageLoop, unmapped v (List.mem_cons_self ..)]
    exact ih fun w member => unmapped w (List.mem_cons_of_mem _ member)

/-- One turn of the page-by-page loop. -/
theorem pageLoop_page (more : start < oldsz) :
    pageLoop layout (pagesFrom start oldsz) d =
      pageLoop layout (start / pgSize :: pagesFrom (start + pgSize) oldsz) d := by
  have turn : 1 ≤ turns start oldsz := by
    unfold turns pgSize
    omega
  rw [pagesFrom_append turn, one_mul]
  rfl

/-- Skipping to the next page table agrees with looking at every page in between. -/
theorem deallocLoop_eq_pageLoop (aligned : start % pgSize = 0)
    (enough : oldsz ≤ start + fuel * pgSize) :
    deallocLoop layout oldsz fuel d start = pageLoop layout (pagesFrom start oldsz) d := by
  induction fuel generalizing d start with
  | zero => rw [pagesFrom_done (by omega)]; rfl
  | succ fuel ih =>
    rw [deallocLoop]
    split
    case isFalse done => rw [pagesFrom_done (by omega)]; rfl
    case isTrue more =>
    rw [Nat.succ_mul] at enough
    have aligned' : (start + pgSize) % pgSize = 0 := by rw [Nat.add_mod_right, aligned]
    have address : start / pgSize * pgSize = start :=
      Nat.div_mul_cancel (Nat.dvd_of_mod_eq_zero aligned)
    have following := fun d => ih (d := d) aligned' (by omega)
    cases table : d.table (pdx start) with
    | none =>
      obtain ⟨jump, further⟩ := next_table start aligned
      dsimp only
      rw [ih (Nat.mul_mod_left _ _) (by omega)]
      -- The pages of the missing table are either all in the interval, or it ends among them.
      by_cases beyond : oldsz ≤ (pdx start + 1) * nPtEntries * pgSize
      · rw [pagesFrom_done beyond, ← append_nil (pagesFrom start oldsz), pageLoop_append]
        intro v member
        obtain ⟨first, last⟩ := (mem_pagesFrom aligned v).mp member
        refine entry_of_no_table table ?_ ?_ <;> unfold pgSize at * <;> omega
      · let skip := (pdx start + 1) * nPtEntries - start / pgSize
        have lands : start + skip * pgSize = (pdx start + 1) * nPtEntries * pgSize := by
          unfold skip pgSize at *
          omega
        have inside : skip ≤ turns start oldsz := by
          unfold skip turns pgSize at *
          omega
        rw [pagesFrom_append inside, lands, pageLoop_append]
        intro v member
        obtain ⟨first, last⟩ := List.mem_range'_1.mp member
        exact entry_of_no_table table first (by unfold skip at last; omega)
    | some t =>
      rw [pageLoop_page more, pageLoop, PageDir.entry_of_table table, address]
      dsimp only
      cases t.pte (ptx start) with
      | none => exact following d
      | some pte => simp only [following]

end Loop

/-- Clearing the entry of a page that is present. -/
theorem entry_clear {pte : Pte} (found : d.entry v = some pte) :
    (d.table (pdx (v * pgSize))).isSome ∧
      (d.setPte (v * pgSize) none).entry = update d.entry v none := by
  have address : v * pgSize / pgSize = v := Nat.mul_div_cancel _ (by decide)
  have present : (d.table (pdx (v * pgSize))).isSome := by
    rw [← address, PageDir.entry_va] at found
    cases table : d.table (pdx (v * pgSize)) with
    | none => rw [table] at found; nomatch found
    | some t => rfl
  exact ⟨present, by rw [PageDir.entry_setPte present, address]⟩

/-- A page-by-page loop below `KERNBASE` gives back what its pages mapped. -/
theorem pageLoop_pages {pages : List Nat} (below : ∀ v ∈ pages, v < userPages) :
    Safe (pageLoop layout pages d) (fun d' later => later.free + d'.pages = a.free + d.pages ∧
      ∀ v, d'.entry v = if v ∈ pages then none else d.entry v) a := by
  induction pages generalizing d a with
  | nil => exact ⟨rfl, fun v => rfl⟩
  | cons v pages ih =>
    obtain ⟨here, below⟩ := List.forall_mem_cons.mp below
    rw [pageLoop]
    cases found : d.entry v with
    | none =>
      refine (ih below).mono fun d' later after => ⟨after.1, fun w => ?_⟩
      rw [after.2]
      grind
    | some pte =>
      obtain ⟨present, cleared⟩ := entry_clear found
      simp only [ok_ite, ok_throw, ok_bind]
      split
      · trivial
      have address : v * pgSize / pgSize = v := Nat.mul_div_cancel _ (by decide)
      obtain ⟨pages, above⟩ := setPte_below none present (by rwa [address])
      rw [address, found, ptePage_some, ptePage_none, add_zero] at pages
      refine (kfree_ok pte.page).mono fun _ freed taken =>
        (ih below).mono fun d' later after => ⟨?_, fun w => ?_⟩
      · rw [after.1, taken, ← pages]
        grind
      · rw [after.2, cleared]
        grind

variable {start oldsz : Nat}

/-- `deallocuvm` from an address on gives back what was mapped from there to the old size. -/
theorem deallocLoop_ok {fuel : Nat} (small : oldsz ≤ kernbase) (aligned : start % pgSize = 0)
    (enough : oldsz ≤ start + fuel * pgSize) :
    Safe (deallocLoop layout oldsz fuel d start) (fun d' later =>
      later.free + d'.pages = a.free + d.pages ∧ Unmaps start oldsz d d') a := by
  have inside : ∀ v, v ∈ pagesFrom start oldsz ↔ start ≤ v * pgSize ∧ v * pgSize < oldsz :=
    mem_pagesFrom aligned
  have below : ∀ v ∈ pagesFrom start oldsz, v < userPages := fun v member => by
    have last := ((inside v).mp member).2
    unfold userPages kernbase pgSize at *
    omega
  rw [deallocLoop_eq_pageLoop aligned enough]
  refine (pageLoop_pages below).mono fun d' later after => ⟨after.1, fun v first last => ?_,
    fun v other => ?_⟩
  · rw [after.2, if_pos]
    refine (inside v).mpr ⟨?_, last⟩
    unfold pgSize at *
    omega
  · rw [after.2, if_neg]
    intro member
    have bounds := (inside v).mp member
    have page := below v member
    unfold pgSize at *
    omega

theorem deallocuvm_ok (small : oldsz ≤ kernbase) :
    Safe (deallocuvm layout d oldsz newsz) (fun r later =>
      later.free + r.2.pages = a.free + d.pages ∧ r.1 ≤ oldsz ∧
      (newsz < oldsz → Unmaps (pgroundup newsz) oldsz d r.2) ∧
      ∀ v, userPages ≤ v → r.2.entry v = d.entry v) a := by
  rw [deallocuvm, Safe, ok_ite]
  split
  case isTrue done => exact ⟨rfl, le_rfl, fun more => by omega, fun _ _ => rfl⟩
  case isFalse more =>
    rw [ok_bind]
    refine (deallocLoop_ok small (pgroundup_mod newsz) (le_add_turns _ _)).mono
      fun d' later after => ?_
    exact ⟨after.1, by omega, fun _ => after.2, fun v above => after.2.same v (.inr above)⟩

/-- The loop gives back the page tables at the indices left. -/
theorem freeTables_ok (indices : List Nat) :
    Safe (freeTables layout d indices) (fun _ later =>
      later.free = a.free + (indices.map fun i => tablePage (d.table i)).sum) a := by
  refine (ok_forM (fun rest now =>
    now.free + (rest.map fun i => tablePage (d.table i)).sum =
      a.free + (indices.map fun i => tablePage (d.table i)).sum) rfl
    fun i rest now inv => ?_).mono fun _ now all => (add_zero now.free).symm.trans all
  rw [List.map_cons, List.sum_cons] at inv
  cases table : d.table i with
  | none =>
    rw [table, tablePage_none, zero_add] at inv
    exact inv
  | some t =>
    rw [table, tablePage_some] at inv
    refine (kfree_ok t.page).mono fun _ later freed => ?_
    rw [freed, ← inv, add_assoc]

/-- `freevm` gives back every page of the address space. -/
theorem freevm_ok : Safe (freevm layout d) (fun _ later => later.free = a.free + d.pages) a := by
  rw [freevm, Safe, ok_bind]
  refine (deallocuvm_ok (Nat.le_refl kernbase)).mono fun r later after => ?_
  obtain ⟨size, d'⟩ := r
  have kept := after.1
  have unmapped : d'.users = 0 := PageDir.users_eq_zero fun v below =>
    (after.2.2.1 (by decide)).cleared v (Nat.zero_le _) (mul_lt_kernbase below)
  rw [PageDir.pages, unmapped, add_zero] at kept
  rw [ok_bind]
  refine (freeTables_ok (List.range nPdEntries)).mono fun _ now freed =>
    (kfree_ok d'.page).mono fun _ last done => ?_
  rw [done, freed, ← tally_eq_sum, ← kept]
  change later.free + d'.tables + _ = _
  grind

/-! ### Address spaces -/

/-- The pages of an address space that may not exist. -/
def spacePages (space : Option PageDir) : Multiset Page := space.elim 0 PageDir.pages

@[simp] theorem spacePages_none : spacePages none = 0 := rfl

@[simp] theorem spacePages_some (d : PageDir) : spacePages (some d) = d.pages := rfl

/-- Entries above `KERNBASE` are not for users, if the address space exists. -/
def KernelOnly (space : Option PageDir) : Prop := ∀ d, space = some d → d.KernelOnly

theorem KernelOnly.none : KernelOnly none := nofun

theorem KernelOnly.some (kernel : d.KernelOnly) : KernelOnly (some d) := by
  rintro _ ⟨⟩
  exact kernel

/-- The pages of a range that ends in the address space. -/
theorem mappages_range {size : Nat} (aligned : va % pgSize = 0) (positive : 0 < size)
    (fits : va + size ≤ uintSize) :
    va + ((pgrounddown ((va + size - 1) % uintSize) + uintSize - pgrounddown va) % uintSize /
      pgSize + 1) * pgSize ≤ uintSize := by
  have start : pgrounddown va = va := Nat.div_mul_cancel (Nat.dvd_of_mod_eq_zero aligned)
  have whole : uintSize = 1048576 * pgSize := rfl
  obtain ⟨p, rfl⟩ : ∃ p, va = p * pgSize := ⟨va / pgSize, start.symm⟩
  have last : (p * pgSize + size - 1) % uintSize = p * pgSize + size - 1 :=
    Nat.mod_eq_of_lt (by omega)
  have ends : pgrounddown (p * pgSize + size - 1) ≤ p * pgSize + size - 1 := Nat.div_mul_le_self _ _
  have begins : p * pgSize ≤ pgrounddown (p * pgSize + size - 1) := by
    rw [← start]
    exact Nat.mul_le_mul_right _ (Nat.div_le_div_right (by omega))
  rw [last, start, Nat.sub_add_comm begins, Nat.add_mod_right, Nat.mod_eq_of_lt (by omega)]
  grind [pgSize]

theorem mapKernel_ok {kmap : List Kmap} (listed : ∀ k ∈ kmap, k ∈ layout.kmap)
    (kernel : d.KernelOnly) :
    Safe (mapKernel layout kmap d) (fun r later =>
      later.free + spacePages r = a.free + d.pages ∧ KernelOnly r ∧
      ∀ d', r = some d' → ∀ v < userPages, d'.entry v = d.entry v) a := by
  induction kmap generalizing d a with
  | nil =>
    refine ⟨rfl, .some kernel, ?_⟩
    rintro _ ⟨⟩ v -
    rfl
  | cons k kmap ih =>
    have here := listed k List.mem_cons_self
    obtain ⟨above, inside, aligned⟩ := layout.above k here
    obtain ⟨positive, fits⟩ := layout.size k here
    have start : pgrounddown k.virt = k.virt :=
      Nat.div_mul_cancel (Nat.dvd_of_mod_eq_zero aligned)
    have range := mappages_range aligned positive fits
    rw [mapKernel, Safe, ok_bind, mappages]
    rw [start] at range ⊢
    refine (mapLoop_ok (layout.kernelOnly k here) (fun _ => ⟨above, range⟩) kernel
      fun _ _ _ _ => trivial).mono fun r later mapped => ?_
    · obtain ⟨all, d'⟩ := r
      obtain ⟨-, kept, only, others, -⟩ := mapped
      have low : ∀ v < userPages, d'.entry v = d.entry v := fun v below => others v fun within => by
        have := Nat.div_le_div_right (c := pgSize) above
        unfold userPages at below
        omega
      cases all with
      | true =>
        grind
      | false =>
        dsimp only
        rw [ok_bind]
        refine freevm_ok.mono fun _ last freed => ?_
        exact ⟨by rw [freed, kept]; exact add_zero _, .none, nofun⟩

/-- `setupkvm` maps nothing for users. -/
theorem setupkvm_ok :
    Safe (setupkvm layout) (fun r later => later.free + spacePages r = a.free ∧ KernelOnly r ∧
      ∀ d, r = some d → ∀ v < userPages, d.entry v = none) a := by
  rw [setupkvm, Safe, ok_bind]
  refine kalloc_ok.mono fun r later taken => ?_
  cases r with
  | none => exact ⟨taken, .none, nofun⟩
  | some page =>
    refine (mapKernel_ok (fun _ listed => listed) ?_).mono fun r last mapped => ?_
    · intro v _ pte found
      exact absurd found (by simp [PageDir.empty, PageDir.entry])
    · exact ⟨mapped.1.trans (by rw [PageDir.pages_empty]; exact taken), mapped.2⟩

/-- Giving up an allocation keeps every page in the directory or on the free list. -/
theorem allocLoop_ok (small : newsz < kernbase) (aligned : start % pgSize = 0)
    (inside : 0 < n → start + n * pgSize < newsz + pgSize) (kernel : d.KernelOnly) :
    Safe (allocLoop layout oldsz newsz n d start) (fun r later =>
      later.free + r.2.pages = a.free + d.pages ∧ r.2.KernelOnly) a := by
  induction n generalizing d start a with
  | zero => exact ⟨rfl, kernel⟩
  | succ n ih =>
    have bound := inside (Nat.succ_pos n)
    rw [Nat.succ_mul] at bound
    rw [allocLoop, Safe, ok_bind]
    refine kalloc_ok.mono fun r taken given => ?_
    cases r with
    | none =>
      rw [onePage_none, add_zero] at given
      dsimp only
      rw [ok_bind]
      refine (deallocuvm_ok (le_of_lt small)).mono fun r later after => ?_
      exact ⟨by rw [after.1, given], kernel.congr after.2.2.2⟩
    | some mem =>
      rw [onePage_some] at given
      dsimp only
      rw [ok_bind, ok_modify, ok_bind]
      refine (mappages_ok aligned (by omega) fun _ => trivial).mono fun r later mapped => ?_
      obtain ⟨all, d'⟩ := r
      obtain ⟨-, kept, only, -⟩ := mapped
      change later.free + d'.pages = taken.free + d.pages + _ at kept
      cases all with
      | false =>
        rw [if_neg Bool.false_ne_true, add_zero] at kept
        simp only [ok_bind]
        refine (deallocuvm_ok (le_of_lt small)).mono fun r later' after => ?_
        refine (kfree_ok mem).mono fun _ last freed => ⟨?_, (only kernel).congr after.2.2.2⟩
        rw [freed, ← given]
        have := after.1.trans kept
        grind
      | true =>
        grind [Nat.add_mod_right]

theorem allocuvm_ok (kernel : d.KernelOnly) :
    Safe (allocuvm layout d oldsz newsz) (fun r later =>
      later.free + r.2.pages = a.free + d.pages ∧ r.2.KernelOnly ∧
      (oldsz ≤ kernbase → r.1 ≤ kernbase)) a := by
  rw [allocuvm, Safe, ok_ite, ok_ite]
  split
  · exact ⟨rfl, kernel, fun _ => Nat.zero_le _⟩
  rename_i small
  split
  · exact ⟨rfl, kernel, fun bounded => bounded⟩
  simp only [ok_bind]
  refine (allocLoop_ok (Nat.lt_of_not_le small) (pgroundup_mod oldsz) add_turns_lt kernel).mono
    fun r later after => ⟨after.1, after.2, fun _ => ?_⟩
  dsimp only
  split
  · exact Nat.le_of_not_le small
  · exact Nat.zero_le _

/-- `copyuvm` returns a new address space or gives back what it built of it. -/
theorem copyLoop_ok (small : sz ≤ kernbase) (aligned : start % pgSize = 0)
    (inside : 0 < n → start + n * pgSize < sz + pgSize) (kernel : d.KernelOnly) :
    Safe (copyLoop layout src n d start) (fun r later =>
      later.free + spacePages r = a.free + d.pages ∧ KernelOnly r) a := by
  induction n generalizing d start a with
  | zero => exact ⟨rfl, .some kernel⟩
  | succ n ih =>
    have bound := inside (Nat.succ_pos n)
    rw [Nat.succ_mul] at bound
    rw [copyLoop]
    cases src.table (pdx start) with
    | none => trivial
    | some t =>
    dsimp only
    cases t.pte (ptx start) with
    | none => trivial
    | some pte =>
    dsimp only
    rw [Safe, ok_bind]
    refine kalloc_ok.mono fun r taken given => ?_
    cases r with
    | none =>
      rw [onePage_none, add_zero] at given
      dsimp only
      rw [ok_bind]
      refine freevm_ok.mono fun _ later freed => ⟨?_, .none⟩
      rw [freed, given]
      exact add_zero _
    | some mem =>
      rw [onePage_some] at given
      dsimp only
      rw [ok_bind, ok_modify, ok_bind]
      refine (mappages_ok aligned (by omega) fun _ => trivial).mono fun r later mapped => ?_
      obtain ⟨all, d'⟩ := r
      obtain ⟨-, kept, only, -⟩ := mapped
      change later.free + d'.pages = taken.free + d.pages + _ at kept
      cases all with
      | false =>
        rw [if_neg Bool.false_ne_true, add_zero] at kept
        simp only [ok_bind]
        refine (kfree_ok mem).mono fun _ later' freed => ?_
        refine freevm_ok.mono fun _ last all => ⟨?_, .none⟩
        rw [all, freed, ← given, spacePages_none, add_zero]
        grind
      | true =>
        grind [Nat.add_mod_right]

theorem copyuvm_ok (small : sz ≤ kernbase) :
    Safe (copyuvm layout src sz) (fun r later =>
      later.free + spacePages r = a.free ∧ KernelOnly r) a := by
  rw [copyuvm, Safe, ok_bind]
  refine setupkvm_ok.mono fun r later made => ?_
  obtain ⟨kept, only, -⟩ := made
  cases r with
  | none => exact ⟨kept, .none⟩
  | some d =>
    refine (copyLoop_ok small (Nat.zero_mod _) add_turns_lt (only d rfl)).mono
      fun r last copied => ?_
    exact ⟨copied.1.trans kept, copied.2⟩

/-- `clearpteu` moves no page. -/
theorem clearpteu_ok (kernel : d.KernelOnly) (below : va < kernbase) :
    Safe (clearpteu d va) (fun d' later => later = a ∧ d'.pages = d.pages ∧ d'.KernelOnly) a := by
  unfold clearpteu
  cases table : d.table (pdx va) with
  | none => trivial
  | some t =>
    obtain ⟨pages, above⟩ := setPte_below
      ((t.pte (ptx va)).map fun pte => { pte with perm := ⟨pte.perm.write, false⟩ })
      (isSome_of_eq_some table) (div_lt_userPages below)
    have same : ptePage ((t.pte (ptx va)).map fun pte =>
        { pte with perm := ⟨pte.perm.write, false⟩ }) = ptePage (t.pte (ptx va)) := by
      cases t.pte (ptx va) <;> rfl
    rw [PageDir.entry_of_table table, same] at pages
    exact ⟨rfl, add_right_cancel pages, kernel.congr above⟩

end Xv6.Vm
