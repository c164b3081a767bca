import Mathlib.Data.Set.Insert

/-!
# Blocks that fill a part of memory

A block is named by the address it begins at; `len` gives the length of each. The blocks of a set
tile the addresses from `lo` up to `hi` if they lie apart and fill them. Two blocks that touch can
be made one, one can be cut in two, and the part that is filled can be extended.
-/

namespace Xv6.Lib

open Function

/-- The blocks of `B` lie apart and fill the addresses from `lo` up to `hi`. -/
structure Tiles (lo hi : Nat) (B : Set Nat) (len : Nat → Nat) : Prop where
  positive : ∀ a ∈ B, 0 < len a
  apart : ∀ a ∈ B, ∀ b ∈ B, a < b → a + len a ≤ b
  cover : ∀ x, lo ≤ x ∧ x < hi ↔ ∃ a ∈ B, a ≤ x ∧ x < a + len a

namespace Tiles

variable {lo hi a b n : Nat} {B C : Set Nat} {len other : Nat → Nat} (tiles : Tiles lo hi B len)

include tiles

omit tiles in
/-- Nothing tiles an empty interval. -/
theorem empty (lo : Nat) (len : Nat → Nat) : Tiles lo lo ∅ len where
  positive _ member := absurd member (Set.notMem_empty _)
  apart _ member := absurd member (Set.notMem_empty _)
  cover x := by
    constructor
    · rintro ⟨above, below⟩
      omega
    · rintro ⟨a, member, -⟩
      exact absurd member (Set.notMem_empty a)

/-- Only the lengths of the blocks matter. -/
theorem congr (blocks : ∀ a, a ∈ C ↔ a ∈ B) (same : ∀ a ∈ B, other a = len a) :
    Tiles lo hi C other := by
  constructor <;> grind [cases Tiles]

/-- A block lies inside. -/
theorem inside (member : a ∈ B) : lo ≤ a ∧ a + len a ≤ hi := by
  have positive := tiles.positive a member
  have first := (tiles.cover a).mpr ⟨a, member, Nat.le_refl a, by omega⟩
  have last := (tiles.cover (a + len a - 1)).mpr ⟨a, member, by omega, by omega⟩
  omega

/-- No block begins inside another one. -/
theorem notMem (member : a ∈ B) (above : a < b) (below : b < a + len a) : b ∉ B := by
  intro other
  have apart := tiles.apart a member b other above
  omega

/-- No block begins where the filled part ends. -/
theorem end_notMem : hi ∉ B := by
  intro member
  have positive := tiles.positive hi member
  have inside := tiles.inside member
  omega

/-- Two blocks that touch become one. -/
theorem merge (left : a ∈ B) (right : b ∈ B) (touch : a + len a = b) :
    Tiles lo hi (B \ {b}) (update len a (len a + len b)) := by
  have first := tiles.positive a left
  have second := tiles.positive b right
  -- the length of a block other than the two
  have old {c : Nat} (ne : c ≠ a) : update len a (len a + len b) c = len c :=
    update_of_ne ne _ _
  constructor
  · rintro c ⟨member, -⟩
    by_cases same : c = a
    · rw [same, update_self]
      omega
    · rw [old same]
      exact tiles.positive c member
  · rintro c ⟨first, -⟩ d ⟨second, ne⟩ order
    by_cases same : c = a
    · -- a block behind `a` lies behind `b`, which touches `a`
      rw [same] at order ⊢
      have behind : b < d := by
        have apart := tiles.apart a left d second order
        have : d ≠ b := ne
        omega
      have apart := tiles.apart b right d second behind
      rw [update_self]
      omega
    · rw [old same]
      exact tiles.apart c first d second order
  · intro x
    rw [tiles.cover x]
    constructor
    · rintro ⟨c, member, above, below⟩
      by_cases same : c = b ∨ c = a
      · refine ⟨a, ⟨left, fun h => ?_⟩, ?_, ?_⟩
        · have : a = b := h
          omega
        · rcases same with rfl | rfl <;> omega
        · rw [update_self]
          rcases same with rfl | rfl <;> omega
      · push Not at same
        refine ⟨c, ⟨member, same.1⟩, above, ?_⟩
        rwa [old same.2]
    · rintro ⟨c, ⟨member, -⟩, above, below⟩
      by_cases same : c = a
      · rw [same, update_self] at below
        by_cases first : x < b
        · exact ⟨a, left, by omega, by omega⟩
        · exact ⟨b, right, by omega, by omega⟩
      · rw [old same] at below
        exact ⟨c, member, above, below⟩

/-- The last `n` addresses of a block become a block of their own. -/
theorem split (member : a ∈ B) (positive : 0 < n) (less : n < len a) (ends : b + n = a + len a) :
    Tiles lo hi (insert b B) (update (update len a (len a - n)) b n) := by
  have ne : a ≠ b := by omega
  have new : b ∉ B := tiles.notMem member (by omega) (by omega)
  have front : update (update len a (len a - n)) b n a = len a - n := by
    rw [update_of_ne ne, update_self]
  have old {c : Nat} (other : c ∈ B) (rest : c ≠ a) :
      update (update len a (len a - n)) b n c = len c := by
    rw [update_of_ne (ne_of_mem_of_not_mem other new), update_of_ne rest]
  -- no block has become longer
  have shorter {c : Nat} (other : c ∈ B) :
      update (update len a (len a - n)) b n c ≤ len c := by
    by_cases same : c = a
    · rw [same, front]
      exact Nat.sub_le _ _
    · exact le_of_eq (old other same)
  constructor
  · rintro c (rfl | other)
    · rwa [update_self]
    · by_cases same : c = a
      · rw [same, front]
        omega
      · rw [old other same]
        exact tiles.positive c other
  · rintro c (rfl | first) d (rfl | second) order
    · omega
    · have behind := tiles.apart a member d second (by omega)
      rw [update_self]
      omega
    · by_cases same : c = a
      · rw [same, front]
        omega
      · have before : c < a := by
          by_contra late
          have apart := tiles.apart a member c first (by omega)
          omega
        have apart := tiles.apart c first a member before
        rw [old first same]
        omega
    · have apart := tiles.apart c first d second order
      have := shorter first
      omega
  · intro x
    rw [tiles.cover x]
    constructor
    · rintro ⟨c, other, above, below⟩
      by_cases same : c = a
      · subst same
        by_cases first : x < b
        · refine ⟨c, .inr other, above, ?_⟩
          rw [front]
          omega
        · refine ⟨b, .inl rfl, by omega, ?_⟩
          rw [update_self]
          omega
      · refine ⟨c, .inr other, above, ?_⟩
        rwa [old other same]
    · rintro ⟨c, rfl | other, above, below⟩
      · rw [update_self] at below
        exact ⟨a, member, by omega, by omega⟩
      · have := shorter other
        exact ⟨c, other, above, by omega⟩

/-- A block is put behind all others. -/
theorem extend (order : lo ≤ hi) (positive : 0 < n) :
    Tiles lo (hi + n) (insert hi B) (update len hi n) := by
  have old {c : Nat} (other : c ∈ B) : update len hi n c = len c :=
    update_of_ne (ne_of_mem_of_not_mem other tiles.end_notMem) _ _
  constructor
  all_goals grind [cases Tiles]

end Tiles

end Xv6.Lib
