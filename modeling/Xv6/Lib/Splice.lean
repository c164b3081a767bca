import Mathlib.Data.List.Basic

/-!
# Writing over a part of a list

`splice` puts a list in the place of as many elements from an offset on, and extends a list whose
end it passes. Two consecutive writes are one.
-/

namespace Xv6.Lib

open List

variable {α : Type} {list part : List α} {off : Nat}

/-- Write a list over the elements from an offset on. -/
def splice (list : List α) (off : Nat) (part : List α) : List α :=
  list.take off ++ part ++ list.drop (off + part.length)

/-- Overwriting with nothing. -/
@[simp] theorem splice_nil : splice list off [] = list := by
  simp [splice]

/-- The list grows if the part reaches behind its end. -/
theorem length_splice (start : off ≤ list.length) :
    (splice list off part).length = max list.length (off + part.length) := by
  simp only [splice, length_append, length_take, length_drop]
  omega

/-- The positions of the part come from it, the others from the list. -/
theorem getElem?_splice (start : off ≤ list.length) (k : Nat) :
    (splice list off part)[k]? =
      if off ≤ k ∧ k < off + part.length then part[k - off]? else list[k]? := by
  have length : (list.take off).length = off := by
    rw [length_take, Nat.min_eq_left start]
  rw [splice, append_assoc]
  by_cases early : k < off
  · rw [getElem?_append_left (by omega), getElem?_take_of_lt early, if_neg (by omega)]
  rw [getElem?_append_right (by omega), length]
  by_cases within : k - off < part.length
  all_goals grind

/-- Two parts one behind the other are one part. -/
theorem splice_append (start : off ≤ list.length) (more : List α) :
    splice (splice list off part) (off + part.length) more = splice list off (part ++ more) := by
  have inside : off + part.length ≤ (splice list off part).length := by
    rw [length_splice start]
    exact Nat.le_max_right ..
  ext1 k
  rw [getElem?_splice inside, getElem?_splice start, getElem?_splice start, length_append]
  by_cases late : off + part.length ≤ k
  · by_cases within : k < off + part.length + more.length
    all_goals grind
  grind

end Xv6.Lib
