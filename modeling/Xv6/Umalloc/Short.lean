import Xv6.Umalloc.Runs

/-!
# Requests that `malloc` cannot serve

The bytes of a request are rounded up to units, the units are multiplied by the size of a header,
the product is passed to `sbrk` as an `int`, and `growproc` adds it to the size of the process. Up
to 2³¹ − 16 bytes none of this wraps.
-/

namespace Xv6.Umalloc

open Function Lib
open Vm (uintSize)

/-- The bytes of a request lie behind the header of one block, and this block in the heap. -/
structure Serves (program : Program) (t : Heap) (p nbytes : Nat) : Prop where
  inside : p + nbytes ≤ p - 8 + t.len (p - 8)
  start : program.start ≤ p - 8
  below : p - 8 + t.len (p - 8) ≤ t.brk

section Serves

variable {program : Program} {s : Heap} {live : List Nat} {nbytes : Nat}

theorem malloc_serves (ready : Ready program s live) (request : nbytes ≤ 2 ^ 31 - 16)
    {grants : List Bool} {p : Nat} {t : Heap}
    (returns : malloc program s nbytes grants = some (p, t)) (some : p ≠ 0) :
    Serves program t p nbytes := by
  obtain ⟨r, u, ring, gives, -, outcome⟩ := malloc_ok ready request grants
  obtain ⟨rfl, rfl⟩ := Prod.mk.inj (Option.some.inj (returns.symm.trans gives))
  rcases outcome with ⟨null, -⟩ | ⟨a, rfl, len, inv⟩
  · exact absurd null some
  · have large := (units_bounds request).2.2
    have within := inv.live_inside List.mem_cons_self
    constructor <;> grind

end Serves

/-! ## A small program -/

theorem Heap.mem_write_self (s : Heap) (p : Nat) (h : Header) : (s.write p h).mem p = h :=
  update_self ..

theorem Heap.mem_write_ne (s : Heap) {p q : Nat} (h : Header) (ne : q ≠ p) :
    (s.write p h).mem q = s.mem q := update_of_ne ne ..

/-- A program of one page, with little room behind its break. -/
def small : Program := ⟨2048, 4004, by decide, by decide, by decide⟩

/-- Its heap at the first call of `malloc`. -/
def fresh : Heap := prepare small (initial small fun _ => ⟨0, 0⟩).heap

theorem fresh_base : fresh.mem 2048 = ⟨2048, 0⟩ := rfl

/-- `sbrk` with a number that is 0 or negative never gives memory. -/
theorem growproc_huge {n : Nat} (word : n < uintSize) (huge : n = 0 ∨ 2 ^ 31 ≤ n)
    (units : n % 8 = 0) : ∃ sz ≤ 4004, growproc 4004 n false = some sz := by
  rcases huge with rfl | huge
  · exact ⟨4004, le_rfl, rfl⟩
  · have positive : min 4004 ((4004 + n) % uintSize) ≠ 0 := by
      rw [uintSize] at word ⊢
      omega
    refine ⟨min 4004 ((4004 + n) % uintSize), min_le_left _ _, ?_⟩
    rw [growproc, if_neg (by omega), if_neg (by omega)]
    exact if_neg positive

/-- `free` of the block at the break, when the list holds `base` alone. -/
theorem free_first {s : Heap} {nu : Nat} (base : s.mem 2048 = ⟨2048, 0⟩) (freep : s.freep = 2048)
    (header : (s.mem 4004).size = nu) :
    ∃ t, free s 4012 = some t ∧ t.freep = 2048 ∧ (t.mem 2048).ptr = 4004 ∧
      (t.mem 4004).size = nu ∧ t.brk = s.brk := by
  have pointer : (4012 + (uintSize - 8)) % uintSize = 4004 := by decide
  have here : place s 4004 (s.brk + 1) s.freep = some 2048 := by
    rw [freep, place, base]
    exact if_pos (by decide)
  -- the block does not end at `base`, for it is not aligned like it
  have apart : advance 4004 nu ≠ 2048 := by
    rw [advance, uintSize]
    omega
  have next : joinNext s 2048 4004 = s.write 4004 ⟨2048, nu⟩ := by
    rw [joinNext, base, header]
    exact (if_neg apart).trans (by rw [← header])
  have prev : joinPrev (s.write 4004 ⟨2048, nu⟩) 2048 4004 =
      (s.write 4004 ⟨2048, nu⟩).write 2048 ⟨4004, 0⟩ := by
    have base' : (s.write 4004 ⟨2048, nu⟩).mem 2048 = ⟨2048, 0⟩ := by
      rw [Heap.mem_write_ne _ _ (by decide), base]
    rw [joinPrev, base']
    exact if_neg (by decide)
  refine ⟨{ (s.write 4004 ⟨2048, nu⟩).write 2048 ⟨4004, 0⟩ with freep := 2048 }, ?_, rfl, ?_, ?_,
    rfl⟩
  all_goals grind [free, Heap.mem_write_self, Heap.mem_write_ne]

/-- The first call of `malloc` with a huge number of units: it takes the memory for given. -/
theorem search_huge {nunits : Nat} (fuel : Nat) (large : 2 ^ 28 ≤ nunits) (word : nunits ≤ 2 ^ 29) :
    ∃ t, search nunits (fuel + 2) [] 2048 2048 fresh = some (4012, t) ∧ t.brk ≤ 4004 := by
  have bytes : nunits * 8 % uintSize = 0 ∨ 2 ^ 31 ≤ nunits * 8 % uintSize := by
    rw [uintSize]
    omega
  have unit : nunits * 8 % uintSize % 8 = 0 := by
    rw [uintSize]
    omega
  obtain ⟨sz, less, grown⟩ := growproc_huge (Nat.mod_lt _ (by decide)) bytes unit
  -- the header that `morecore` writes at the old break
  obtain ⟨s, written⟩ : ∃ s, s =
    { fresh with brk := sz }.write 4004 { fresh.mem 4004 with size := nunits } := ⟨_, rfl⟩
  have base : s.mem 2048 = ⟨2048, 0⟩ := by
    rw [written, Heap.mem_write_ne _ _ (by decide)]
    rfl
  have header : (s.mem 4004).size = nunits := by rw [written, Heap.mem_write_self]
  obtain ⟨t, frees, freep, ptr, size, brk⟩ := free_first base (by rw [written]; rfl) header
  have more : morecore fresh nunits false = some (2048, t) := by
    have given : sbrk fresh (nunits * 8 % uintSize) false =
        (some 4004, { fresh with brk := sz }) := by
      rw [sbrk, show fresh.brk = 4004 from rfl, grown]
    rw [morecore, if_neg (by omega), given]
    dsimp only
    rw [← written, show advance 4004 1 = 4012 from rfl, frees, ← freep]
    rfl
  have taken : search nunits (fuel + 1) [] 2048 4004 t = some (carve t nunits 2048 4004) := by
    rw [search, if_pos (le_of_eq size.symm)]
  have whole : carve t nunits 2048 4004 = (4012,
      { t.write 2048 { t.mem 2048 with ptr := (t.mem 4004).ptr } with freep := 2048 }) :=
    if_pos size
  have none : ¬ nunits ≤ (fresh.mem 2048).size := by
    rw [fresh_base]
    dsimp only
    omega
  have found : search nunits (fuel + 2) [] 2048 2048 fresh = some (carve t nunits 2048 4004) := by
    rw [search, if_neg none, if_pos (show 2048 = fresh.freep from rfl), List.headD_nil, more]
    show search nunits (fuel + 1) [] 2048 (t.mem 2048).ptr t = _
    rw [ptr, taken]
  rw [whole] at found
  refine ⟨_, found, ?_⟩
  show t.brk ≤ 4004
  rw [brk, written]
  exact less

/-- A request of 2³¹ − 15 bytes or more, up to the largest word. -/
theorem malloc_huge {nbytes : Nat} (huge : 2 ^ 31 - 16 < nbytes) (word : nbytes < 2 ^ 32) :
    ∃ grants p t, malloc small (initial small fun _ => ⟨0, 0⟩).heap nbytes grants = some (p, t) ∧
      p ≠ 0 ∧ t.brk < p + nbytes := by
  have start (grants : List Bool) :
      malloc small (initial small fun _ => ⟨0, 0⟩).heap nbytes grants =
        search (units nbytes) (8009 + 2) grants 2048 2048 fresh := rfl
  by_cases wraps : nbytes + 7 < 2 ^ 32
  · have range : 2 ^ 28 ≤ units nbytes ∧ units nbytes ≤ 2 ^ 29 := by
      rw [units, uintSize]
      omega
    obtain ⟨t, found, brk⟩ := search_huge 8009 range.1 range.2
    exact ⟨[], 4012, t, (start []).trans found, by decide, by omega⟩
  · have one : units nbytes = 1 := by
      rw [units, uintSize]
      omega
    have run : (search 1 8011 [true] 2048 2048 fresh).map (fun r => (r.1, r.2.brk)) =
        some (36772, 36772) := by decide +kernel
    grind [Option.map_eq_some_iff]

/-- In every state that requests of at most 2³¹ − 16 bytes, `free` of live pointers and stores in
live blocks lead to, `malloc` returns 0 or serves the request: just for requests of at most this
size. -/
theorem malloc_serves_iff (nbytes : Nat) (word : nbytes < 2 ^ 32) :
    (∀ (program : Program) (mem : Nat → Header) (state : State),
      Reach (step program) Modest (initial program mem) state →
        ∀ grants p t, malloc program state.heap nbytes grants = some (p, t) → p ≠ 0 →
          Serves program t p nbytes) ↔ nbytes ≤ 2 ^ 31 - 16 := by
  constructor
  · intro all
    by_contra huge
    obtain ⟨grants, p, t, returns, some, beyond⟩ := malloc_huge (by omega) word
    have serves := all small _ _ .start grants p t returns some
    have inside := serves.inside.trans serves.below
    omega
  · intro request program mem state reached grants p t returns some
    exact malloc_serves (reach_sound (fun _ _ modest => modest) reached).ready request returns some

/-- A request of 100 bytes. -/
theorem malloc_serves_hundred : ¬∃ grants p t,
    malloc small (initial small fun _ => ⟨0, 0⟩).heap 100 grants = some (p, t) ∧ p ≠ 0 ∧
      ¬ Serves small t p 100 := by
  rintro ⟨grants, p, t, returns, some, short⟩
  exact short ((malloc_serves_iff 100 (by decide)).mpr (by decide) small _ _ .start grants p t
    returns some)

/-- The requests 2³² − 1, which is rounded up to no bytes at all, and 2³¹, for which `sbrk` is
called with a negative number. -/
theorem malloc_short_block :
    (∃ grants p t, malloc small (initial small fun _ => ⟨0, 0⟩).heap (2 ^ 32 - 1) grants =
      some (p, t) ∧ p ≠ 0 ∧ t.brk < p + (2 ^ 32 - 1)) ∧
    ∃ grants p t, malloc small (initial small fun _ => ⟨0, 0⟩).heap (2 ^ 31) grants =
      some (p, t) ∧ p ≠ 0 ∧ t.brk < p + 2 ^ 31 :=
  ⟨malloc_huge (by decide) (by decide), malloc_huge (by decide) (by decide)⟩

end Xv6.Umalloc
