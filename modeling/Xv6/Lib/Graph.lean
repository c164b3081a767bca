import Xv6.Lib.Tally

/-!
# Reachability in a graph of references

Each node of a graph refers to a multiset of nodes. `Reachable` are the nodes that references
lead to from a root. Adding references keeps them reachable; so does removing the references to a
node that refers to nothing, for every other node.
-/

namespace Xv6.Lib

open Function

/-- The nodes that references lead to from the root. -/
inductive Reachable (out : Nat → Multiset Nat) (root : Nat) : Nat → Prop where
  | root : Reachable out root root
  | next {d i : Nat} (earlier : Reachable out root d) (edge : i ∈ out d) : Reachable out root i

namespace Reachable

variable {out later : Nat → Multiset Nat} {root i j : Nat}

/-- More edges reach as much. -/
theorem mono (reachable : Reachable out root j) (more : ∀ d, ∀ i ∈ out d, i ∈ later d) :
    Reachable later root j := by
  induction reachable with
  | root => exact .root
  | next _ edge ih => exact .next ih (more _ _ edge)

/-- No way to another node leads through one that refers to nothing. -/
theorem except (reachable : Reachable out root j) (leaf : out i = 0) (other : j ≠ i)
    (rest : ∀ d, ∀ k ∈ out d, k ≠ i → k ∈ later d) : Reachable later root j := by
  induction reachable with
  | root => exact .root
  | @next d k earlier edge ih =>
    have inner : d ≠ i := by
      intro same
      rw [same, leaf] at edge
      exact Multiset.notMem_zero k edge
    exact .next (ih inner) (rest d k edge other)

end Reachable

/-- The references of the first `n` nodes. -/
def references (n : Nat) (out : Nat → Multiset Nat) : Multiset Nat := tally n id out

section References

variable {n d i : Nat} {out later : Nat → Multiset Nat}

/-- A reference comes from one of the nodes. -/
theorem mem_references : i ∈ references n out ↔ ∃ d < n, i ∈ out d := mem_tally

/-- A node refers to one more. -/
theorem references_cons (inside : d < n) (here : later d = i ::ₘ out d)
    (elsewhere : ∀ j ≠ d, later j = out j) : references n later = i ::ₘ references n out := by
  obtain ⟨rest, before, assign⟩ := tally_split inside id out
  have updated : later = update out d (i ::ₘ out d) := by
    funext j
    rw [update_apply]
    split
    · rename_i same
      rw [same, here]
    · rename_i different
      exact elsewhere j different
  unfold references
  rw [updated, assign, before]
  exact Multiset.cons_add i (out d) rest

end References

end Xv6.Lib
