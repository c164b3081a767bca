import Mathlib.Data.List.Nodup

/-!
# Lists threaded through their elements

A pointer to the first element and a pointer from each element to the next. An element is appended
by a walk to the last one.
-/

namespace Xv6.Lib

open Function List

variable {α : Type}

/-- Following the pointers from `first` gives the list. -/
def Linked (next : α → Option α) (first : Option α) : List α → Prop
  | [] => first = none
  | x :: list => first = some x ∧ Linked next (next x) list

/-- Follow the pointers from an element to the last one, within a number of turns. -/
def lastFrom (next : α → Option α) : Nat → α → Option α
  | 0, _ => none
  | turns + 1, x =>
    match next x with
    | none => some x
    | some y => lastFrom next turns y

/-- Append an element, which then points nowhere. -/
def linkLast [DecidableEq α] (turns : Nat) (next : α → Option α) (first : Option α) (x : α) :
    Option ((α → Option α) × Option α) :=
  match first with
  | none => some (update next x none, some x)
  | some head =>
    (lastFrom (update next x none) turns head).map fun last =>
      (update (update next x none) last (some x), some head)

namespace Linked

variable {next other : α → Option α} {first : Option α} {list : List α} {x : α} {turns : Nat}

/-- A chain depends on the links of its members alone. -/
theorem congr (linked : Linked next first list) (same : ∀ y ∈ list, other y = next y) :
    Linked other first list := by
  induction list generalizing first with
  | nil => exact linked
  | cons y list ih =>
    obtain ⟨here, there⟩ := List.forall_mem_cons.mp same
    exact ⟨linked.1, by rw [here]; exact ih linked.2 there⟩

/-- The walk needs as many turns as there are elements, and ends at the last one. -/
theorem lastFrom_eq (linked : Linked next (some x) list) :
    lastFrom next turns x = if list.length ≤ turns then list.getLast? else none := by
  induction turns generalizing x list with
  | zero =>
    cases list with
    | nil => nomatch linked
    | cons y list => rfl
  | succ turns ih =>
    cases list with
    | nil => nomatch linked
    | cons y list =>
      obtain ⟨here, rest⟩ := linked
      obtain rfl : x = y := Option.some.inj here
      rw [lastFrom]
      cases list with
      | nil =>
        rw [show next x = none from rest]
        rfl
      | cons z list =>
        have step : next x = some z := rest.1
        rw [step] at rest ⊢
        rw [getLast?_cons_cons, length_cons]
        simpa using ih rest

variable [DecidableEq α]

/-- A pointer set at the last element continues the list. -/
theorem append {front : List α} {last : α} (linked : Linked next first (front ++ [last]))
    (distinct : (front ++ [last]).Nodup) (ends : next x = none) (fresh : x ≠ last) :
    Linked (update next last (some x)) first (front ++ [last] ++ [x]) := by
  induction front generalizing first with
  | nil =>
    refine ⟨linked.1, update_self .., ?_⟩
    rw [update_of_ne fresh]
    exact ends
  | cons y front ih =>
    obtain ⟨apart, distinct⟩ := List.nodup_cons.mp distinct
    refine ⟨linked.1, ?_⟩
    rw [update_of_ne (by rintro rfl; exact apart (by simp))]
    exact ih linked.2 distinct

/-- An element that is not in the list is appended if the turns are enough. -/
theorem linkLast_eq (linked : Linked next first list) (distinct : list.Nodup) (fresh : x ∉ list) :
    (list.length ≤ turns → (linkLast turns next first x).isSome) ∧
    ∀ later start, linkLast turns next first x = some (later, start) →
      Linked later start (list ++ [x]) := by
  have kept : Linked (update next x none) first list :=
    linked.congr fun y member => update_of_ne (ne_of_mem_of_not_mem member fresh) _ _
  unfold linkLast
  cases list with
  | nil =>
    rw [show first = none from linked]
    refine ⟨fun _ => rfl, fun later start appended => ?_⟩
    cases appended
    exact ⟨rfl, update_self ..⟩
  | cons head list =>
    obtain ⟨front, last, split⟩ : ∃ front last, head :: list = front ++ [last] :=
      ⟨_, _, (dropLast_append_getLast (cons_ne_nil head list)).symm⟩
    rw [linked.1] at kept ⊢
    dsimp only
    rw [kept.lastFrom_eq, split, getLast?_concat]
    refine ⟨fun enough => by rw [if_pos enough]; rfl, fun later start appended => ?_⟩
    split at appended
    case isFalse => nomatch appended
    case isTrue =>
      cases appended
      rw [split] at kept distinct fresh
      exact kept.append distinct (update_self ..) fun same => fresh (by simp [same])

end Linked

end Xv6.Lib
