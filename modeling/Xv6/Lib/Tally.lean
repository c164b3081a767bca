import Mathlib.Algebra.BigOperators.Group.Finset.Piecewise
import Mathlib.Algebra.BigOperators.Group.Finset.Sigma

/-!
# References kept in a table

Each entry of a table holds some references. The references held by the whole table are tallied
as a multiset; assigning one entry exchanges what that entry holds and nothing else.
-/

namespace Xv6.Lib

open Function Multiset Finset

variable {α β : Type} {n i : Nat} {weigh : α → Multiset β} {table : Nat → α} {value : β}

/-- The references that the first `n` entries hold. -/
def tally (n : Nat) (weigh : α → Multiset β) (table : Nat → α) : Multiset β :=
  ∑ i ∈ Finset.range n, weigh (table i)

/-- What is counted belongs to an index. -/
theorem mem_tally : value ∈ tally n weigh table ↔ ∃ i < n, value ∈ weigh (table i) := by
  simp [tally, mem_sum]

/-- A tally as a sum over a list. -/
theorem tally_eq_sum : tally n weigh table = ((List.range n).map fun i => weigh (table i)).sum := by
  show (Multiset.map _ (Multiset.range n)).sum = _
  rw [Multiset.range, Multiset.map_coe, sum_coe]

/-- How often a value is referred to. -/
theorem count_tally [DecidableEq β] (n : Nat) (weigh : α → Multiset β) (table : Nat → α)
    (value : β) :
    (tally n weigh table).count value = ∑ i ∈ Finset.range n, (weigh (table i)).count value :=
  Multiset.count_sum'

/-- When an entry holds at most one reference, those to a value are counted by entries. -/
theorem count_tally_eq_card [DecidableEq β] {holds : Nat → Prop} [DecidablePred holds]
    (once : ∀ i < n, (weigh (table i)).count value = if holds i then 1 else 0) :
    (tally n weigh table).count value = ((Finset.range n).filter holds).card := by
  rw [count_tally, card_filter]
  exact sum_congr rfl fun i inside => once i (Finset.mem_range.mp inside)

/-- One entry and what the others hold. -/
theorem tally_split (inside : i < n) (weigh : α → Multiset β) (table : Nat → α) :
    ∃ rest, tally n weigh table = weigh (table i) + rest ∧
      ∀ entry, tally n weigh (update table i entry) = weigh entry + rest := by
  have member : i ∈ Finset.range n := Finset.mem_range.mpr inside
  refine ⟨∑ j ∈ (Finset.range n).erase i, weigh (table j), ?_, ?_⟩
  · exact (add_sum_erase _ _ member).symm
  · intro entry
    unfold tally
    rw [← add_sum_erase _ _ member, update_self]
    congr 1
    apply sum_congr rfl
    intro j other
    rw [update_of_ne (ne_of_mem_erase other)]

/-- Tables whose first `n` entries hold the same references. -/
theorem tally_congr {other : Nat → α} (same : ∀ i < n, weigh (other i) = weigh (table i)) :
    tally n weigh other = tally n weigh table := by
  apply sum_congr rfl
  intro i inside
  exact same i (Finset.mem_range.mp inside)

/-- A table whose entries hold nothing. -/
theorem tally_eq_zero (none : ∀ i < n, weigh (table i) = 0) : tally n weigh table = 0 := by
  apply Finset.sum_eq_zero
  intro i inside
  exact none i (Finset.mem_range.mp inside)

/-- When nothing is referred to twice, a reference is in one entry. -/
theorem tally_injective {j : Nat} (once : (tally n weigh table).Nodup) (first : i < n)
    (second : j < n) (here : value ∈ weigh (table i)) (there : value ∈ weigh (table j)) :
    i = j := by
  by_contra different
  have member : i ∈ Finset.range n := Finset.mem_range.mpr first
  rw [tally, ← add_sum_erase _ _ member, nodup_add] at once
  have other : j ∈ (Finset.range n).erase i :=
    mem_erase.mpr ⟨Ne.symm different, Finset.mem_range.mpr second⟩
  exact Multiset.disjoint_left.mp once.2.2 here (mem_sum.mpr ⟨j, other, there⟩)

/-- Assigning an entry that holds the same references. -/
theorem tally_same {entry : α} (same : weigh entry = weigh (table i)) :
    tally n weigh (update table i entry) = tally n weigh table := by
  apply tally_congr
  intro j _
  by_cases here : j = i
  · rw [here, update_self, same]
  · rw [update_of_ne here]

-- Tables are large: the lemmas above are used instead of computing the sum.
attribute [irreducible] tally

end Xv6.Lib
