import Mathlib.Data.List.Pairwise
import Xv6.Umalloc.Invariant

/-!
# `malloc`, and programs that use it

The loop of `malloc` goes once around the cycle. If no block is large enough it asks for memory,
and with the new block the second round finds one. So every call returns, and the invariant holds
along every run of calls.
-/

namespace Xv6.Umalloc

open Function Lib List
open Vm (kernbase uintSize)

variable {program : Program} {s : Heap} {p prevp nunits : Nat} {ring live : List Nat} {nbytes : Nat}
  {grants : List Bool} {m : List Nat}

/-- What a call of `malloc` returns: nothing, or a new live block of as many units as needed. -/
def Gives (program : Program) (s : Heap) (live : List Nat) (nunits : Nat)
    (result : Option (Nat × Heap)) : Prop :=
  ∃ r t ring, result = some (r, t) ∧ (∀ a ∈ live, t.len a = s.len a) ∧
    (r = 0 ∧ Inv program t ring live ∨
      ∃ a, r = a + 8 ∧ t.len a = 8 * nunits ∧ Inv program t ring (a :: live))

/-! ## Taking a block -/

section Carve

variable (inv : Inv program s ring live) (positive : 0 < nunits)

include inv positive

/-- A block that is large enough has a place behind another one. -/
theorem large_split (member : prevp ∈ ring) (follows : s.next prevp = p)
    (large : nunits ≤ (s.mem p).size) : p ≠ program.base ∧ ∃ x y, ring = x ++ prevp :: p :: y := by
  have other : p ≠ program.base := by
    rintro rfl
    have empty := inv.empty
    rw [Heap.len] at empty
    omega
  obtain ⟨x, y, rfl⟩ := append_of_mem member
  have next := inv.path.next_eq
  cases y with
  | nil => exact absurd (follows.symm.trans next) other
  | cons q y =>
    obtain rfl : p = q := follows.symm.trans next
    exact ⟨other, x, y, rfl⟩

/-- The whole block. -/
theorem carve_whole {x y : List Nat} (whole : (s.mem p).size = nunits) (other : p ≠ program.base)
    (place : ring = x ++ prevp :: p :: y) :
    Gives program s live nunits (some (carve s nunits prevp p)) := by
  subst place
  have block : p ∈ x ++ prevp :: p :: y := by simp
  have inside := inv.free_inside block other
  have limit := inv.limit
  have sub : (x ++ prevp :: y).Sublist (x ++ prevp :: p :: y) :=
    ((sublist_cons_self p y).cons_cons prevp).append_left x
  have once := (List.nodup_cons.mp (nodup_middle.mp inv.nodup)).1
  have off : p ∉ x ++ prevp :: y := by
    have nodup := inv.nodup
    rw [append_cons] at nodup ⊢
    exact (List.nodup_cons.mp (nodup_middle.mp nodup)).1
  -- only the pointer of the block before changes
  let h : Header := ⟨s.next p, (s.mem prevp).size⟩
  have len : (s.write prevp h).len = s.len := by
    rw [Heap.len_write]
    exact update_eq_self prevp s.len
  have pointer : advance p 1 = p + 8 := by
    rw [Heap.len] at inside
    rw [kernbase] at limit
    exact advance_eq (by rw [uintSize]; omega)
  refine ⟨p + 8, { s.write prevp h with freep := prevp }, x ++ prevp :: y, ?_, ?_,
    .inr ⟨p, rfl, ?_, ?_⟩⟩
  · rw [carve, if_pos whole, pointer]
    rfl
  · exact fun a _ => congrFun len a
  · exact (congrFun len p).trans (congrArg (8 * ·) whole)
  · exact {
      path := by
        change Path (s.write prevp h).next _ _ _
        rw [Heap.next_write]
        refine inv.path.remove (fun member => once ?_) fun member => once ?_
        · simp [member]
        · simp [member]
      freep := by simp
      spaced := by
        change (x ++ prevp :: y).Pairwise fun a b => a + (s.write prevp h).len a < b
        rw [len]
        exact inv.spaced.sublist sub
      empty := (congrFun len _).trans inv.empty
      tiles := by
        refine inv.tiles.congr (fun a => ?_) fun a _ => congrFun len a
        rw [append_cons x prevp y, append_cons x prevp (p :: y), mem_blocks_move other]
      apart := List.forall_mem_cons.mpr
        ⟨off, fun a member inside => inv.apart a member (sub.subset inside)⟩
      once := List.nodup_cons.mpr ⟨fun member => inv.apart p member block, inv.once⟩
      above := inv.above
      limit := inv.limit }

/-- The last units of the block. -/
theorem carve_tail (member : prevp ∈ ring) (block : p ∈ ring) (other : p ≠ program.base)
    (larger : nunits < (s.mem p).size) :
    Gives program s live nunits (some (carve s nunits prevp p)) := by
  have inside := inv.free_inside block other
  have limit := inv.limit
  rw [kernbase] at limit
  rw [Heap.len] at inside
  obtain ⟨tail, ends⟩ : ∃ tail, tail = p + 8 * ((s.mem p).size - nunits) := ⟨_, rfl⟩
  have stop : tail + 8 * nunits = p + s.len p := by
    rw [Heap.len]
    omega
  have ne : tail ≠ p := by omega
  have off : tail ∉ blocks program ring live :=
    inv.tiles.notMem (.inl ⟨block, other⟩) (by omega) (by omega)
  have behind : tail ≠ program.base := by
    have := program.base_below
    omega
  let t := (s.write p ⟨s.next p, (s.mem p).size - nunits⟩).write tail ⟨s.next tail, nunits⟩
  have next : t.next = s.next := by
    rw [Heap.next_write, Heap.next_write, update_eq_self, update_eq_self]
  have len : t.len = update (update s.len p (s.len p - 8 * nunits)) tail
      (8 * nunits) := by
    rw [Heap.len_write, Heap.len_write, Nat.mul_sub]
    rfl
  have offRing : tail ∉ ring := fun inside => off (.inl ⟨inside, behind⟩)
  have shorter {a : Nat} (member : a ∈ ring) : t.len a ≤ s.len a := by
    rw [len, update_of_ne (ne_of_mem_of_not_mem member offRing)]
    by_cases same : a = p
    · rw [same, update_self]
      exact Nat.sub_le _ _
    · rw [update_of_ne same]
  refine ⟨tail + 8, { t with freep := prevp }, ring, ?_, ?_, .inr ⟨tail, rfl, ?_, ?_⟩⟩
  · have front : (s.write p { s.mem p with size := (s.mem p).size - nunits }).mem p =
        { s.mem p with size := (s.mem p).size - nunits } := update_self ..
    have back : (s.write p { s.mem p with size := (s.mem p).size - nunits }).mem tail =
        s.mem tail := update_of_ne ne _ _
    have pointer : advance p ((s.mem p).size - nunits) = tail := by
      rw [ends]
      exact advance_eq (by rw [uintSize]; omega)
    rw [carve, if_neg (ne_of_gt larger)]
    dsimp only
    rw [front]
    dsimp only
    rw [pointer, back, advance_eq (by rw [uintSize]; omega)]
    rfl
  · intro a inside
    have notTail : a ≠ tail := fun same => off (.inr (same ▸ inside))
    have notBlock : a ≠ p := fun same => inv.apart a inside (same ▸ block)
    change t.len a = _
    rw [len, update_of_ne notTail, update_of_ne notBlock]
  · change t.len tail = _
    rw [len, update_self]
  · exact {
      path := by
        change Path t.next _ _ _
        rw [next]
        exact inv.path
      freep := member
      spaced := inv.spaced.imp_of_mem fun first _ gap =>
        lt_of_le_of_lt (Nat.add_le_add_left (shorter first) _) gap
      empty := Nat.le_zero.mp (inv.empty ▸ shorter inv.base_mem)
      tiles := by
        change Tiles _ _ _ t.len
        rw [len]
        refine (inv.tiles.split (.inl ⟨block, other⟩) (by omega) ?_ stop).congr ?_ fun _ _ => rfl
        all_goals grind [blocks]
      apart := List.forall_mem_cons.mpr ⟨offRing, inv.apart⟩
      once := List.nodup_cons.mpr ⟨fun live => off (.inr live), inv.once⟩
      above := inv.above
      limit := inv.limit }

theorem carve_ok (member : prevp ∈ ring) (follows : s.next prevp = p)
    (large : nunits ≤ (s.mem p).size) :
    Gives program s live nunits (some (carve s nunits prevp p)) := by
  grind [large_split, carve_whole, carve_tail]

end Carve

/-! ## Asking for memory -/

/-- New memory is a live block at first. -/
theorem extend_ok {nu : Nat} (inv : Inv program s ring live) (positive : 0 < nu)
    (limit : s.brk + 8 * nu < kernbase) :
    Inv program ({ s with brk := s.brk + 8 * nu }.write s.brk ⟨s.next s.brk, nu⟩) ring
      (s.brk :: live) := by
  obtain ⟨t, written⟩ : ∃ t, t = { s with brk := s.brk + 8 * nu }.write s.brk ⟨s.next s.brk, nu⟩ :=
    ⟨_, rfl⟩
  have next : t.next = s.next := by
    rw [written, Heap.next_write]
    exact update_eq_self _ _
  have len : t.len = update s.len s.brk (8 * nu) := by
    rw [written, Heap.len_write]
    rfl
  have new : s.brk ∉ blocks program ring live := inv.tiles.end_notMem
  have ne : s.brk ≠ program.base := by
    have above := inv.above
    have := program.base_below
    omega
  have off : s.brk ∉ ring := fun inside => new (.inl ⟨inside, ne⟩)
  have same {a : Nat} (member : a ∈ ring) : t.len a = s.len a := by
    rw [len, update_of_ne (ne_of_mem_of_not_mem member off)]
  rw [← written]
  exact {
    path := next ▸ inv.path
    freep := written ▸ inv.freep
    spaced := inv.spaced.imp_of_mem fun first _ gap => by rwa [same first]
    empty := (same inv.base_mem).trans inv.empty
    tiles := by
      rw [len, show t.brk = s.brk + 8 * nu by rw [written]; rfl]
      refine (inv.tiles.extend inv.above (by omega)).congr (fun a => ?_) fun _ _ => rfl
      simp only [blocks, Set.mem_insert_iff, Set.mem_ofPred_eq, mem_cons]
      tauto
    apart := List.forall_mem_cons.mpr ⟨off, inv.apart⟩
    once := List.nodup_cons.mpr ⟨fun inside => new (.inr inside), inv.once⟩
    above := by
      rw [written]
      exact inv.above.trans (Nat.le_add_right _ _)
    limit := written ▸ limit }

/-- `sbrk` with a positive number. -/
theorem sbrk_grow {n : Nat} (granted : Bool) (limit : s.brk < kernbase) (positive : 0 < n)
    (small : n < 2 ^ 31) : sbrk s n granted =
      if s.brk + n < kernbase ∧ granted then (some s.brk, { s with brk := s.brk + n })
      else (none, s) := by
  grind [uintSize, kernbase, sbrk, growproc]

/-- `morecore` fails, or the list has a block that is large enough. -/
theorem morecore_ok (inv : Inv program s ring live) (request : nunits < 2 ^ 28) (granted : Bool) :
    morecore s nunits granted = some (0, s) ∨
      ∃ t ring', morecore s nunits granted = some (t.freep, t) ∧ Inv program t ring' live ∧
        (∀ a ∈ live, t.len a = s.len a) ∧ ring'.length ≤ ring.length + 1 ∧
        ∃ a ∈ ring', nunits ≤ (t.mem a).size := by
  obtain ⟨nu, clamp⟩ : ∃ nu, (if nunits < 4096 then 4096 else nunits) = nu := ⟨_, rfl⟩
  have bounds : nunits ≤ nu ∧ 0 < nu ∧ nu < 2 ^ 28 := by
    split at clamp <;> omega
  have bytes : nu * 8 % uintSize = 8 * nu := by
    rw [uintSize]
    omega
  rw [morecore, clamp]
  dsimp only
  rw [bytes, sbrk_grow granted inv.limit (by omega) (by omega)]
  by_cases grants : s.brk + 8 * nu < kernbase ∧ granted
  · rw [if_pos grants]
    dsimp only
    have extended := extend_ok inv bounds.2.1 grants.1
    obtain ⟨t, ring', returns, later, -, same, short, a, member, large⟩ := free_ok extended
    have pointer : advance s.brk 1 = s.brk + 8 := by
      have limit := inv.limit
      rw [kernbase] at limit
      exact advance_eq (by rw [uintSize]; omega)
    refine .inr ⟨t, ring', ?_, later, ?_, short, a, member, ?_⟩
    · rw [Heap.next] at returns
      rw [pointer, returns]
      rfl
    · intro a inside
      have other := ne_of_mem_of_not_mem inside (List.nodup_cons.mp extended.once).1
      rw [same a inside, Heap.len_write, update_of_ne other]
      rfl
    · rw [Heap.len_write, update_self, Heap.len] at large
      dsimp only at large
      omega
  · rw [if_neg grants]
    exact .inl rfl

/-! ## The loop of `malloc` -/

/-- With a block that is large enough on the way, the loop finds one. -/
theorem search_found (inv : Inv program s ring live) (positive : 0 < nunits) {fuel : Nat}
    (path : Path s.next p m s.freep) (first : s.freep ∉ m) (member : prevp ∈ ring)
    (follows : s.next prevp = p) (enough : m.length < fuel)
    (large : ∃ a ∈ m ++ [s.freep], nunits ≤ (s.mem a).size) :
    Gives program s live nunits (search nunits fuel grants prevp p s) := by
  induction m generalizing p prevp fuel with
  | nil =>
    grind [Nat.exists_eq_add_one, search, carve_ok, Lib.Path]
  | cons q m ih =>
    obtain ⟨fuel, rfl⟩ := Nat.exists_eq_add_one.mpr (Nat.zero_lt_of_lt enough)
    obtain ⟨rfl, path⟩ := path
    rw [mem_cons, not_or] at first
    rw [search]
    by_cases here : nunits ≤ (s.mem p).size
    · rw [if_pos here]
      exact carve_ok inv positive member follows here
    · rw [if_neg here, if_neg (Ne.symm first.1)]
      refine ih path first.2 (follows ▸ inv.next_mem member) rfl (Nat.lt_of_succ_lt_succ enough) ?_
      grind

theorem Gives.trans {t : Heap} {result : Option (Nat × Heap)}
    (gives : Gives program t live nunits result) (same : ∀ a ∈ live, t.len a = s.len a) :
    Gives program s live nunits result := by
  grind [Gives]

/-- The way around the cycle from the block behind `freep`. -/
theorem Inv.round (inv : Inv program s ring live) :
    ∃ m, Path s.next (s.next s.freep) m s.freep ∧ s.freep ∉ m ∧ m.length + 1 = ring.length ∧
      ∀ a ∈ ring, a ∈ m ++ [s.freep] := by
  obtain ⟨l, r, split⟩ := append_of_mem inv.freep
  have path := inv.path
  have nodup := inv.nodup
  rw [split] at path nodup
  grind [path.rotate]

/-- The loop of `malloc` ends. -/
theorem search_ok (inv : Inv program s ring live) (positive : 0 < nunits)
    (request : nunits < 2 ^ 28) {fuel : Nat} (path : Path s.next p m s.freep)
    (first : s.freep ∉ m) (member : prevp ∈ ring) (follows : s.next prevp = p)
    (enough : m.length + ring.length + 2 ≤ fuel) :
    Gives program s live nunits (search nunits fuel grants prevp p s) := by
  induction m generalizing p prevp fuel with
  | nil =>
    obtain ⟨fuel, rfl⟩ := Nat.exists_eq_add_one.mpr (Nat.zero_lt_of_lt enough)
    rw [search]
    by_cases here : nunits ≤ (s.mem p).size
    · rw [if_pos here]
      exact carve_ok inv positive member follows here
    · rw [if_neg here, if_pos (show p = s.freep from path)]
      rcases morecore_ok inv request (grants.headD false) with fails | more
      · rw [fails]
        exact ⟨0, s, ring, rfl, fun _ _ => rfl, .inl ⟨rfl, inv⟩⟩
      · obtain ⟨t, ring', returns, later, same, short, a, inside, large⟩ := more
        obtain ⟨m, path, first, length, all⟩ := later.round
        have null : t.freep ≠ 0 := by
          have least := later.base_le later.freep
          have := program.base_ne_null
          omega
        rw [returns, Option.bind_eq_bind, Option.bind_some]
        dsimp only
        rw [if_neg null]
        refine (search_found later positive path first later.freep rfl ?_
          ⟨a, all a inside, large⟩).trans same
        rw [length_nil] at enough
        omega
  | cons q m ih =>
    obtain ⟨fuel, rfl⟩ := Nat.exists_eq_add_one.mpr (Nat.zero_lt_of_lt enough)
    obtain ⟨rfl, path⟩ := path
    rw [mem_cons, not_or] at first
    rw [search]
    by_cases here : nunits ≤ (s.mem p).size
    · rw [if_pos here]
      exact carve_ok inv positive member follows here
    · rw [if_neg here, if_neg (Ne.symm first.1)]
      refine ih path first.2 (follows ▸ inv.next_mem member) rfl ?_
      rw [length_cons] at enough
      omega

/-- The heap before the first call of `malloc`, or after it. -/
def Ready (program : Program) (s : Heap) (live : List Nat) : Prop :=
  (s.freep = 0 ∧ live = [] ∧ s.brk = program.start) ∨ ∃ ring, Inv program s ring live

/-- The first call of `malloc` makes the list. -/
theorem prepare_ok (ready : Ready program s live) :
    (∃ ring, Inv program (prepare program s) ring live) ∧
      ∀ a ∈ live, (prepare program s).len a = s.len a := by
  rcases ready with ⟨null, rfl, brk⟩ | ⟨ring, inv⟩
  · rw [prepare, if_pos null]
    refine ⟨⟨[program.base], ?_⟩, fun a member => absurd member not_mem_nil⟩
    have len : (s.write program.base ⟨program.base, 0⟩).len program.base = 0 := by
      rw [Heap.len_write, update_self, Nat.mul_zero]
    exact {
      path := by
        refine ⟨rfl, ?_⟩
        change (s.write program.base ⟨program.base, 0⟩).next program.base = program.base
        rw [Heap.next_write, update_self]
      freep := mem_singleton_self _
      spaced := pairwise_singleton _ _
      empty := len
      tiles := by
        change Tiles _ s.brk _ _
        rw [brk]
        refine (Tiles.empty _ _).congr (fun a => ?_) fun _ _ => rfl
        simp [blocks]
      apart := fun a member => absurd member not_mem_nil
      once := nodup_nil
      above := le_of_eq brk.symm
      limit := brk ▸ program.start_below }
  · have null : s.freep ≠ 0 := by
      have least := inv.base_le inv.freep
      have := program.base_ne_null
      omega
    rw [prepare, if_neg null]
    exact ⟨⟨ring, inv⟩, fun _ _ => rfl⟩

/-- The units for a request. -/
theorem units_bounds (request : nbytes ≤ 2 ^ 31 - 16) :
    0 < units nbytes ∧ units nbytes < 2 ^ 28 ∧ nbytes + 8 ≤ 8 * units nbytes := by
  rw [units, uintSize]
  omega

/-- `malloc` returns. -/
theorem malloc_ok (ready : Ready program s live) (request : nbytes ≤ 2 ^ 31 - 16)
    (grants : List Bool) :
    Gives program s live (units nbytes) (malloc program s nbytes grants) := by
  obtain ⟨⟨ring, inv⟩, same⟩ := prepare_ok ready
  obtain ⟨positive, few, -⟩ := units_bounds request
  obtain ⟨m, path, first, length, -⟩ := inv.round
  have short := inv.length_le
  exact (search_ok inv positive few path first inv.freep rfl (by omega)).trans same

/-! ## Runs -/

/-- The invariant of the state: of the heap, and of the blocks that were asked for. -/
structure Sound (program : Program) (s : State) : Prop where
  ready : Ready program s.heap (s.live.map Block.header)
  large : ∀ b ∈ s.live, b.ptr = b.header + 8 ∧ b.bytes + 8 ≤ s.heap.len b.header

theorem initial_sound (program : Program) (mem : Nat → Header) :
    Sound program (initial program mem) :=
  ⟨.inl ⟨rfl, rfl, rfl⟩, fun _ member => absurd member not_mem_nil⟩

/-- The order of the live blocks does not matter. -/
theorem Inv.perm {others : List Nat} (inv : Inv program s ring live) (perm : live.Perm others) :
    Inv program s ring others :=
  { inv with
    tiles := inv.tiles.congr (fun a => by simp only [blocks, Set.mem_ofPred_eq, perm.mem_iff])
      fun _ _ => rfl
    apart := fun a member => inv.apart a (perm.mem_iff.mpr member)
    once := perm.nodup_iff.mp inv.once }

section Step

variable {state : State} (sound : Sound program state) {b : Block}

include sound

theorem malloc_step (grants : List Bool) (request : nbytes ≤ 2 ^ 31 - 16) :
    ∃ later, step program state (.malloc nbytes grants) = some later ∧ Sound program later := by
  obtain ⟨r, t, ring, returns, same, outcome⟩ := malloc_ok sound.ready request grants
  have kept : ∀ b ∈ state.live, b.ptr = b.header + 8 ∧ b.bytes + 8 ≤ t.len b.header := by
    intro b member
    rw [same b.header (mem_map_of_mem member)]
    exact sound.large b member
  rw [step, returns]
  refine ⟨_, rfl, ?_⟩
  rcases outcome with ⟨rfl, inv⟩ | ⟨a, rfl, len, inv⟩
  · rw [if_pos rfl]
    exact ⟨.inr ⟨ring, inv⟩, kept⟩
  · rw [if_neg (Nat.succ_ne_zero _)]
    refine ⟨.inr ⟨ring, inv⟩, List.forall_mem_cons.mpr ⟨⟨rfl, ?_⟩, kept⟩⟩
    exact (units_bounds request).2.2.trans (le_of_eq len.symm)

/-- The list exists while a block is live. -/
theorem Sound.inv (member : b ∈ state.live) :
    ∃ ring, Inv program state.heap ring (state.live.map Block.header) := by
  rcases sound.ready with ⟨-, none, -⟩ | ready
  · rw [map_eq_nil_iff] at none
    rw [none] at member
    exact absurd member not_mem_nil
  · exact ready

theorem free_step (member : b ∈ state.live) :
    ∃ later, step program state (.free b.ptr) = some later ∧ Sound program later := by
  obtain ⟨ring, inv⟩ := sound.inv member
  obtain ⟨c, before, after, -, same, split, erased⟩ :=
    exists_of_eraseP (p := fun c => c.ptr = b.ptr) member (by simp)
  have here : c.ptr = b.ptr := of_decide_eq_true same
  have perm : (state.live.map Block.header).Perm
      (c.header :: (before ++ after).map Block.header) := by
    rw [split, ← map_cons]
    exact perm_middle.map _
  have inv := inv.perm perm
  have pointer := (sound.large c (by simp [split])).1
  obtain ⟨t, ring', returns, later, -, kept, -⟩ := free_ok inv
  rw [step, ← here, pointer, returns]
  refine ⟨_, rfl, ?_⟩
  rw [← pointer, here, erased]
  refine ⟨.inr ⟨ring', later⟩, fun d live => ?_⟩
  have old := sound.large d (by
    rw [split]
    exact ((sublist_cons_self c after).append_left before).subset live)
  change d.ptr = d.header + 8 ∧ d.bytes + 8 ≤ t.len d.header
  rw [kept d.header (mem_map_of_mem live)]
  exact old

theorem store_step {address : Nat} (h : Header) (member : b ∈ state.live) (above : b.ptr ≤ address)
    (below : address + 8 ≤ b.header + 8 * (state.heap.mem b.header).size) :
    ∃ later, step program state (.store address h) = some later ∧ Sound program later := by
  obtain ⟨ring, inv⟩ := sound.inv member
  have pointer := (sound.large b member).1
  have block : b.header ∈ state.live.map Block.header := mem_map_of_mem member
  have off : address ∉ blocks program ring (state.live.map Block.header) :=
    inv.tiles.notMem (.inr block) (by omega) (by rw [Heap.len]; omega)
  have ne : address ≠ program.base := by
    have inside := inv.live_inside block
    have := program.base_below
    omega
  have offRing : address ∉ ring := fun inside => off (.inl ⟨inside, ne⟩)
  have len {a : Nat} (other : a ≠ address) :
      (state.heap.write address h).len a = state.heap.len a := by
    rw [Heap.len_write, update_of_ne other]
  refine ⟨_, rfl, .inr ⟨ring, inv.congr ?_ ?_ inv.freep rfl⟩, ?_⟩
  · intro a inside
    rw [Heap.next_write, update_of_ne (ne_of_mem_of_not_mem inside offRing)]
  · rintro a (inside | inside)
    · exact len (ne_of_mem_of_not_mem inside offRing)
    · exact len fun same => off (.inr (same ▸ inside))
  · intro c live
    have other : c.header ≠ address := fun same => off (.inr (same ▸ mem_map_of_mem live))
    rw [len other]
    exact sound.large c live

theorem step_ok {event : Event} (modest : Modest state event) :
    ∃ later, step program state event = some later ∧ Sound program later := by
  cases event with
  | malloc nbytes grants => exact malloc_step sound grants modest
  | free ap =>
    obtain ⟨b, member, rfl⟩ := modest
    exact free_step sound member
  | store address h =>
    obtain ⟨b, member, above, below⟩ := modest
    exact store_step sound h member above below

end Step

theorem reach_sound {may : State → Event → Prop} (modest : ∀ s e, may s e → Modest s e)
    {mem : Nat → Header} {state : State}
    (reached : Reach (step program) may (initial program mem) state) : Sound program state := by
  refine reached.invariant (Sound program) (initial_sound program mem) ?_
  grind [step_ok]

/-- The heap as its user knows it, with the free blocks. -/
structure WellFormed (program : Program) (s : State) (free : List Nat) : Prop where
  /-- From `base` through the free blocks, and back. -/
  cycle : Path s.heap.next program.base (program.base :: free) program.base
  /-- In the order of addresses. -/
  order : (program.base :: free).Pairwise (· < ·)
  freep : s.heap.freep ∈ program.base :: free
  /-- No free block ends where another one begins. -/
  gaps : ∀ a ∈ free, ∀ b ∈ free, a + s.heap.len a ≠ b
  /-- Free and live blocks lie apart and fill the memory that `sbrk` has given. -/
  tiles : Tiles program.start s.heap.brk {a | a ∈ free ++ s.live.map Block.header} s.heap.len
  once : (free ++ s.live.map Block.header).Nodup
  /-- A live block holds its request behind the header. -/
  large : ∀ b ∈ s.live, b.ptr = b.header + 8 ∧ b.bytes + 8 ≤ s.heap.len b.header

theorem Inv.wellFormed {state : State}
    (inv : Inv program state.heap ring (state.live.map Block.header))
    (large : ∀ b ∈ state.live, b.ptr = b.header + 8 ∧ b.bytes + 8 ≤ state.heap.len b.header) :
    ∃ free, WellFormed program state free := by
  have nonempty := ne_nil_of_mem inv.freep
  cases ring with
  | nil => exact absurd rfl nonempty
  | cons base free =>
    obtain rfl : program.base = base := inv.path.1
    have base := (List.nodup_cons.mp inv.nodup).1
    have live {a : Nat} (member : a ∈ state.live.map Block.header) : a ∉ free :=
      fun inside => inv.apart a member (mem_cons_of_mem _ inside)
    refine ⟨free, inv.path, inv.sorted, inv.freep, ?_, ?_, ?_, large⟩
    · intro a first b second touch
      have ne : ∀ c ∈ free, c ≠ program.base := fun c member same => base (same ▸ member)
      have positive := inv.tiles.positive a (.inl ⟨mem_cons_of_mem _ first, ne a first⟩)
      have apart : free.Pairwise fun a b => a + state.heap.len a ≠ b ∧ b + state.heap.len b ≠ a :=
        (List.pairwise_cons.mp inv.spaced).2.imp fun gap => by omega
      have : Std.Symm fun a b => a + state.heap.len a ≠ b ∧ b + state.heap.len b ≠ a :=
        ⟨fun _ _ => And.symm⟩
      exact (apart.forall first second (by omega)).1 touch
    · refine inv.tiles.congr (fun a => ?_) fun _ _ => rfl
      grind [blocks]
    grind [inv.nodup, cases Inv]

/-- In every run of `malloc` and `free`: the free blocks form a cycle through `base` in the order
of addresses, no two of them touch, together with the live blocks they tile the memory that `sbrk`
has given, live blocks hold what was asked for, and every call returns. -/
theorem heap_invariant (program : Program) (mem : Nat → Header) (state : State)
    (reached : Reach (step program) Allowed (initial program mem) state) :
    ((state.heap.freep = 0 ∧ state.live = [] ∧ state.heap.brk = program.start) ∨
      ∃ free, WellFormed program state free) ∧
    ∀ event, Allowed state event → ∃ later, step program state event = some later := by
  have sound := reach_sound (fun _ _ allowed => allowed.modest) reached
  constructor
  · rcases sound.ready with ⟨null, none, brk⟩ | ⟨ring, inv⟩
    · exact .inl ⟨null, map_eq_nil_iff.mp none, brk⟩
    · exact .inr (inv.wellFormed sound.large)
  · intro event allowed
    obtain ⟨later, moves, -⟩ := step_ok sound allowed.modest
    exact ⟨later, moves⟩

/-- Two of three blocks are freed and become one; the third one lies before it. -/
theorem heap_invariant_joined : ∃ program mem state,
    Reach (step program) Allowed (initial program mem) state ∧
      state.live = [⟨36704, 20⟩] ∧ state.heap.freep ≠ 0 ∧
      ∃ free, WellFormed program state free := by
  let program : Program := ⟨100, 4096, by decide, by decide, by decide⟩
  let events : List Event := [.malloc 10 [true], .malloc 100 [], .malloc 20 [],
    .store 36736 ⟨1, 2⟩, .free 36848, .free 36736]
  obtain ⟨state, reached, live, freep⟩ :
      ∃ s, Reach (step program) Allowed (initial program fun _ => ⟨0, 0⟩) s ∧
        s.live = [⟨36704, 20⟩] ∧ s.heap.freep = 4096 :=
    exists_reach events (by decide +kernel)
  refine ⟨program, _, state, reached, live, by omega, ?_⟩
  refine (heap_invariant program _ state reached).1.resolve_left fun early => ?_
  omega

end Xv6.Umalloc
