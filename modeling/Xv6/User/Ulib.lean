import Mathlib.Algebra.Order.Ring.Int
import Xv6.Param

/-!
# Numbers as text

`atoi` of `ulib.c` and `printint` of `printf.c`. A decimal number below `2 ^ 31` is read back; with
ten more digits behind it, the `int` can wrap around to every value.
-/

namespace Xv6.User

open List

/-- A number as it is typed. -/
def digits (n : Nat) : List Char := Nat.toDigits 10 n

/-- `atoi`: the digits at the front, in an `int` that wraps around. -/
def atoi (text : List Char) : Int :=
  (Nat.ofDigitChars 10 (text.takeWhile Char.isDigit) 0 : Int).bmod (2 ^ 32)

variable {n : Nat} {text rest : List Char}

theorem isDigit_of_mem_digits {c : Char} (member : c ∈ digits n) : c.isDigit = true :=
  Nat.isDigit_of_mem_toDigits (by decide) (by decide) member

theorem digits_length_le_iff {k : Nat} (positive : 0 < k) : (digits n).length ≤ k ↔ n < 10 ^ k :=
  Nat.length_toDigits_le_iff (by decide) positive

/-- Digits are read up to a character that is none. -/
theorem atoi_append (number : ∀ c ∈ text, c.isDigit = true)
    (stops : ∀ c ∈ rest.head?, c.isDigit = false) :
    atoi (text ++ rest) = (Nat.ofDigitChars 10 text 0 : Int).bmod (2 ^ 32) := by
  have none : rest.takeWhile Char.isDigit = [] := by
    cases rest with
    | nil => rfl
    | cons c rest => simp [stops c rfl]
  unfold atoi
  rw [takeWhile_append_of_pos number, none, append_nil]

theorem atoi_digits_append (small : n < 2 ^ 31) (stops : ∀ c ∈ rest.head?, c.isDigit = false) :
    atoi (digits n ++ rest) = n := by
  rw [atoi_append (fun c => isDigit_of_mem_digits) stops, digits, Nat.ofDigitChars_ten_toDigits,
    Int.bmod_eq_of_le (by omega) (by omega)]

theorem atoi_digits (small : n < 2 ^ 31) : atoi (digits n) = n := by
  have read := @atoi_digits_append n [] small (by simp)
  rwa [append_nil] at read

/-- The loop of `printint`, lowest digit first, while `buf` has room. -/
def printLoop (base : Nat) : Nat → Nat → Option (List Char)
  | 0, _ => none
  | room + 1, x =>
    let digit := "0123456789ABCDEF".toList.getD (x % base) ' '
    if x / base = 0 then some [digit] else (printLoop base room (x / base)).map (digit :: ·)

/-- `printint` of `printf.c`: what it prints, or nothing if it writes behind the 16 bytes. -/
def printint (xx : Int) (base : Nat) (sgn : Bool) : Option (List Char) :=
  if sgn ∧ xx < 0 then (printLoop base 15 (-xx % 2 ^ 32).toNat).map fun buf => '-' :: buf.reverse
  else (printLoop base 16 (xx % 2 ^ 32).toNat).map reverse

theorem printLoop_eq {room : Nat} (fits : (digits n).length ≤ room) :
    printLoop 10 room n = some (digits n).reverse := by
  have symbol : ∀ d < 10, "0123456789ABCDEF".toList.getD d ' ' = d.digitChar := by decide
  unfold digits at fits ⊢
  induction room generalizing n with
  | zero => grind [Nat.toDigits_ne_nil]
  | succ room ih =>
    rw [printLoop, symbol _ (Nat.mod_lt _ (by decide))]
    by_cases small : n < 10
    · simp [Nat.toDigits_of_lt_base small, Nat.div_eq_of_lt small, Nat.mod_eq_of_lt small]
    · rw [Nat.toDigits_of_base_le (by decide) (Nat.le_of_not_lt small)] at fits ⊢
      simp [ih (by simpa using fits), small]

/-- `printint` prints every `int` inside its buffer, and `atoi` reads back what is not negative. -/
theorem printint_exact {xx : Int} (least : -2 ^ 31 ≤ xx) (most : xx < 2 ^ 31) :
    printint xx 10 true = some ((if xx < 0 then ['-'] else []) ++ digits xx.natAbs) ∧
      (0 ≤ xx → (printint xx 10 true).map atoi = some xx) := by
  have short : (digits xx.natAbs).length ≤ 10 := (digits_length_le_iff (by decide)).mpr (by omega)
  rw [printint]
  by_cases neg : xx < 0
  · have value : (-xx % 2 ^ 32).toNat = xx.natAbs := by omega
    rw [if_pos ⟨rfl, neg⟩, value, printLoop_eq (by omega)]
    simp [neg]
  · have value : (xx % 2 ^ 32).toNat = xx.natAbs := by omega
    have read := @atoi_digits xx.natAbs (by omega)
    rw [if_neg (by simp [neg]), value, printLoop_eq (by omega)]
    simp [neg, read, abs_of_nonneg (not_lt.mp neg)]

/-- The least `int`. -/
theorem printint_exact_least : printint (-2 ^ 31) 10 true = some ('-' :: digits (2 ^ 31)) :=
  (printint_exact (by decide) (by decide)).1

theorem atoi_nil : atoi [] = 0 := by
  have read := @atoi_append [] [] (by simp) (by simp)
  rwa [Nat.ofDigitChars_nil, Nat.cast_zero, Int.zero_bmod] at read

/-- Ten digits for a number below `10 ^ 10`. -/
theorem exists_ten_digits {j : Nat} (small : j < 10 ^ 10) : ∃ text : List Char,
    (∀ c ∈ text, c.isDigit = true) ∧ text.length = 10 ∧ Nat.ofDigitChars 10 text 0 = j := by
  have short : (digits j).length ≤ 10 := (digits_length_le_iff (by decide)).mpr small
  refine ⟨replicate (10 - (digits j).length) '0' ++ digits j, ?_, ?_, ?_⟩
  · intro c member
    rcases mem_append.mp member with zero | digit
    · rw [eq_of_mem_replicate zero]
      rfl
    · exact isDigit_of_mem_digits digit
  · rw [length_append, length_replicate]
    omega
  · rw [Nat.ofDigitChars_append, Nat.ofDigitChars_replicate_zero, Nat.mul_zero, digits,
      Nat.ofDigitChars_ten_toDigits]

/-- What is read goes on behind the text, to any value of an `int`. -/
theorem exists_atoi_append (number : ∀ c ∈ text, c.isDigit = true) {v : Int} (least : -2 ^ 31 ≤ v)
    (most : v < 2 ^ 31) : ∃ more, atoi (text ++ more) = v := by
  obtain ⟨more, all, length, value⟩ := @exists_ten_digits
    ((v - 10 ^ 10 * Nat.ofDigitChars 10 text 0) % 2 ^ 32).toNat (by omega)
  refine ⟨more, ?_⟩
  have whole := @atoi_append (text ++ more) []
    (fun c member => (mem_append.mp member).elim (number c) (all c)) (by simp)
  rw [append_nil, Nat.ofDigitChars_append, Nat.ofDigitChars_eq_ofDigitChars_zero, length,
    value] at whole
  rw [whole, Int.bmod_eq_iff (by decide)]
  omega

end Xv6.User
