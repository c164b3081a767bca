import Xv6.User.Ulib
import Xv6.Xvedit.File

/-!
# Ranges of lines in `xvedit`

`convert_range` copies four bytes of each number into a buffer that it does not initialise, so
that a number of four digits or more goes on with what `malloc` left there. `LIST` prints the
lines of its range, right-aligned, whatever is in the buffers, if the numbers are below 1000 and,
where the end is omitted, there are fewer lines than `num_length` can count.
-/

namespace Xv6.Xvedit

open Xv6.User List

/-- The documented ranges. -/
inductive Range where
  | line (n : Nat)
  | between (a b : Nat)
  | startingAt (a : Nat)
  | upTo (b : Nat)
  | whole

/-- What `malloc` left in the two buffers of `convert_range`, from the fifth byte on. -/
structure Scratch where
  start : List Char
  stop : List Char

/-- A buffer that four bytes of the text are copied to, as `atoi` sees it. -/
def copied (text scratch : List Char) : List Char :=
  if text.length < 4 then text else text.take 4 ++ scratch

/-- `convert_range`: `start` and `end`. Nothing reads the `length` that it also stores, behind the
eight bytes of `range_output`: that block is taken not to end at the break. -/
def convertRange (scratch : Scratch) (text : List Char) : Int × Int :=
  match text.findIdx? (· == ':') with
  | some i =>
    if i = 0 ∧ text.length = 1 then (0, 0)
    else if i = 0 ∧ 1 < text.length then (0, atoi (copied (text.drop (i + 1)) scratch.stop))
    else if i ≠ 0 ∧ text.length = i then (atoi (copied text scratch.start), 0)
    else (atoi (copied text scratch.start), atoi (copied (text.drop (i + 1)) scratch.stop))
  | none => (atoi (copied text scratch.start), atoi (copied text scratch.start))

namespace Range

/-- A range as it is typed. -/
def text : Range → List Char
  | line n => digits n
  | between a b => digits a ++ ':' :: digits b
  | startingAt a => digits a ++ [':']
  | upTo b => ':' :: digits b
  | whole => [':']

/-- The first line. -/
def first : Range → Nat
  | line n => n
  | between a _ | startingAt a => a
  | upTo _ | whole => 1

/-- The last line, of so many. -/
def last (count : Nat) : Range → Nat
  | line n => n
  | between _ b | upTo b => b
  | startingAt _ | whole => count

/-- Line numbers start with 1. -/
def Positive : Range → Prop
  | line n => 0 < n
  | between a b => 0 < a ∧ 0 < b
  | startingAt a => 0 < a
  | upTo b => 0 < b
  | whole => True

end Range

/-- A number as `convert_range` reads it. -/
def readNumber (scratch : List Char) (n : Nat) : Int :=
  if n < 1000 then n else atoi ((digits n).take 4 ++ scratch)

/-- The ends that `convert_range` reads. -/
def Range.ends (scratch : Scratch) : Range → Int × Int
  | line n => (readNumber scratch.start n, readNumber scratch.start n)
  | between a b => (readNumber scratch.start a, readNumber scratch.stop b)
  | startingAt a => (readNumber scratch.start a, 0)
  | upTo b => (0, readNumber scratch.stop b)
  | whole => (0, 0)

/-! ## Converting -/

/-- The number in front of the end of the text or of a colon. -/
theorem atoi_copied (scratch : List Char) {n : Nat} {rest : List Char}
    (stops : ∀ c ∈ rest.head?, c = ':') :
    atoi (copied (digits n ++ rest) scratch) = readNumber scratch n := by
  have length := @digits_length_le_iff n 3 (by decide)
  rw [readNumber, copied]
  by_cases small : n < 1000
  · have apart : ∀ c ∈ rest.head?, c.isDigit = false := fun c first => stops c first ▸ rfl
    rw [if_pos small]
    split
    · exact atoi_digits_append (by omega) apart
    · -- the colon is among the four bytes
      obtain ⟨m, room⟩ : ∃ m, 4 - (digits n).length = m + 1 := ⟨3 - (digits n).length, by omega⟩
      rw [take_append, take_of_length_le (by omega), room, append_assoc]
      refine atoi_digits_append (by omega) fun c first => ?_
      cases rest with
      | nil => grind
      | cons d rest => exact apart c first
  · rw [if_neg small, if_neg (by grind), take_append_of_le_length (by omega)]

theorem findIdx?_digits (n : Nat) : (digits n).findIdx? (· == ':') = none := by
  rw [findIdx?_eq_none_iff]
  intro c member
  exact beq_false_of_ne fun same => absurd (isDigit_of_mem_digits (same ▸ member)) (by decide)

theorem convertRange_text (scratch : Scratch) (r : Range) :
    convertRange scratch r.text = r.ends scratch := by
  have colon : ∀ n rest, (digits n ++ ':' :: rest).findIdx? (· == ':') =
      some (digits n).length := by
    intro n rest
    rw [findIdx?_append, findIdx?_digits, findIdx?_cons]
    simp
  have more : ∀ n, 0 < (digits n).length := fun n => Nat.length_toDigits_pos
  have alone : ∀ junk n, atoi (copied (digits n) junk) = readNumber junk n := by
    intro junk n
    have read := @atoi_copied junk n [] (by simp)
    rwa [append_nil] at read
  cases r with
  | line n => rw [convertRange, Range.text, findIdx?_digits, Range.ends, alone]
  | between a b =>
    have := more a
    rw [convertRange, Range.text, colon]
    simp only
    rw [if_neg (by omega), if_neg (by omega), if_neg (by simp), atoi_copied _ (by simp),
      drop_append, drop_of_length_le (by omega)]
    simp [Range.ends, alone]
  | startingAt a =>
    have := more a
    have empty : atoi (copied [] scratch.stop) = 0 := atoi_nil
    rw [convertRange, Range.text, colon]
    simp only
    rw [if_neg (by omega), if_neg (by omega), if_neg (by simp), atoi_copied _ (by simp),
      drop_of_length_le (by simp), empty, Range.ends]
  | upTo b =>
    have := more b
    rw [convertRange, Range.text, findIdx?_cons, if_pos (by rfl)]
    simp only [length_cons]
    rw [if_neg (by omega), if_pos ⟨trivial, by omega⟩, drop_succ_cons, drop_zero, alone,
      Range.ends]
  | whole => rfl

/-- A number of four digits or more is read as any value, depending on the buffer. -/
theorem exists_readNumber {n : Nat} (large : 1000 ≤ n) {v : Int} (least : -2 ^ 31 ≤ v)
    (most : v < 2 ^ 31) : ∃ scratch, readNumber scratch n = v := by
  obtain ⟨scratch, read⟩ := exists_atoi_append (v := v)
    (fun c member => @isDigit_of_mem_digits n c (mem_of_mem_take member)) least most
  refine ⟨scratch, ?_⟩
  rw [readNumber, if_neg (by omega)]
  exact read

/-! ## `LIST` -/

/-- `num_length`. -/
def numLength (n : Int) : Nat :=
  if n < 10 then 1
  else if n < 100 then 2
  else if n < 1000 then 3
  else if n < 10000 then 4
  else if n < 100000 then 5
  else if n < 1000000 then 6
  else if n < 10000000 then 7
  else if n < 100000000 then 8
  else if n < 1000000000 then 9
  else 0

/-- What is printed for a line. -/
structure Printed where
  blanks : Nat
  number : Nat
  line : List UInt8
  deriving DecidableEq

/-- The loop of `list`, with `start` and `end` and `line_num_length`. -/
def listLoop (range : Int × Int) (width : Nat) : List (List UInt8) → Nat → List Printed
  | [], _ => []
  | line :: rest, i =>
    let printed : List Printed := [⟨width - numLength i, i, line⟩]
    (if range.2 = 0 ∧ range.1 ≠ 0 ∧ range.1 ≤ i then printed else []) ++
    (if range.2 ≠ 0 ∧ range.1 = 0 ∧ i ≤ range.1 then printed else []) ++
    (if range.2 = 0 ∧ range.1 = 0 then printed else []) ++
    (if range.1 ≤ i ∧ i ≤ range.2 then printed else []) ++ listLoop range width rest (i + 1)

/-- `list`, with `count` the number of lines. -/
def list (scratch : Scratch) (text : List Char) (lines : List (List UInt8)) : List Printed :=
  let range := convertRange scratch text
  listLoop range (numLength (if range.2 ≠ 0 then range.2 else lines.length)) lines 1

/-- Each line of the range is printed once, in order, its number right-aligned. -/
def Lists (lines : List (List UInt8)) (r : Range) (printed : List Printed) : Prop :=
  printed.map (fun p => (p.line, p.number)) =
    (lines.zipIdx 1).filter (fun p => r.first ≤ p.2 ∧ p.2 ≤ r.last lines.length) ∧
  ∃ width, ∀ p ∈ printed, p.blanks + (digits p.number).length = width

/-- The numbers are below 1000, up to the end of a range that starts behind the last line, and
`num_length` can count the lines where it has to. -/
def Range.Short (count : Nat) : Range → Prop
  | line n => n < 1000
  | between a b => a < 1000 ∧ (b < 1000 ∨ count < a)
  | startingAt a => a < 1000 ∧ count < 10 ^ 9
  | upTo b => b < 1000
  | whole => count < 10 ^ 9

/-- The line is printed. -/
def Shown (range : Int × Int) (i : Nat) : Prop := range.1 ≤ i ∧ (range.2 = 0 ∨ i ≤ range.2)

instance (range : Int × Int) (i : Nat) : Decidable (Shown range i) :=
  inferInstanceAs (Decidable (_ ∧ _))

theorem listLoop_eq (range : Int × Int) (width : Nat) (lines : List (List UInt8)) (i : Nat)
    (positive : 0 < i) : listLoop range width lines i =
      ((lines.zipIdx i).filter (fun p => Shown range p.2)).map
        fun p => ⟨width - numLength p.2, p.2, p.1⟩ := by
  induction lines generalizing i with
  | nil => rfl
  | cons line rest ih =>
    rw [listLoop, ih (i + 1) (by omega), zipIdx_cons, filter_cons]
    have once : ∀ printed : List Printed,
        (if range.2 = 0 ∧ range.1 ≠ 0 ∧ range.1 ≤ i then printed else []) ++
        (if range.2 ≠ 0 ∧ range.1 = 0 ∧ i ≤ range.1 then printed else []) ++
        (if range.2 = 0 ∧ range.1 = 0 then printed else []) ++
        (if range.1 ≤ i ∧ i ≤ range.2 then printed else []) =
        if Shown range i then printed else [] := by
      grind [Shown]
    rw [once]
    by_cases shown : Shown range i
    · simp [shown]
    · simp [shown]

/-- `num_length` counts the digits of a number it can count. -/
theorem numLength_eq {n : Nat} (small : n < 10 ^ 9) : numLength n = (digits n).length := by
  have least : 0 < (digits n).length := Nat.length_toDigits_pos
  have one := @digits_length_le_iff n 1 (by decide)
  have two := @digits_length_le_iff n 2 (by decide)
  have three := @digits_length_le_iff n 3 (by decide)
  have four := @digits_length_le_iff n 4 (by decide)
  have five := @digits_length_le_iff n 5 (by decide)
  have six := @digits_length_le_iff n 6 (by decide)
  have seven := @digits_length_le_iff n 7 (by decide)
  have eight := @digits_length_le_iff n 8 (by decide)
  have nine := @digits_length_le_iff n 9 (by decide)
  grind [numLength]

theorem digits_length_mono {m n : Nat} (le : m ≤ n) : (digits m).length ≤ (digits n).length := by
  have positive : 0 < (digits n).length := Nat.length_toDigits_pos
  rw [digits_length_le_iff positive]
  have := (digits_length_le_iff positive).mp (Nat.le_refl (digits n).length)
  omega

variable {lines : List (List UInt8)} {r : Range} {scratch : Scratch}

/-- The lines that are printed, and the widths. -/
theorem lists_iff : Lists lines r (list scratch r.text lines) ↔
    (∀ i, 1 ≤ i → i ≤ lines.length →
      (Shown (r.ends scratch) i ↔ r.first ≤ i ∧ i ≤ r.last lines.length)) ∧
    ∃ width, ∀ i, 1 ≤ i → i ≤ lines.length → Shown (r.ends scratch) i →
      numLength (if (r.ends scratch).2 ≠ 0 then (r.ends scratch).2 else lines.length) -
        numLength i + (digits i).length = width := by
  have member : ∀ p ∈ lines.zipIdx 1, 1 ≤ p.2 ∧ p.2 ≤ lines.length := by
    intro p inside
    have := mem_zipIdx inside
    omega
  have exist : ∀ i, 1 ≤ i → i ≤ lines.length → ∃ line, (line, i) ∈ lines.zipIdx 1 := by
    intro i least most
    refine ⟨lines[i - 1], ?_⟩
    rw [mk_mem_zipIdx_iff_le_and_getElem?_sub]
    exact ⟨least, getElem?_eq_getElem (by omega)⟩
  rw [Lists, list, convertRange_text, listLoop_eq _ _ _ _ (by decide),
    map_map]
  refine and_congr ⟨fun same i least most => ?_, fun same => ?_⟩ ⟨?_, ?_⟩
  · obtain ⟨line, inside⟩ := exist i least most
    have both := congrArg ((line, i) ∈ ·) same
    simpa [inside] using both
  · refine (List.map_id' _).trans (filter_congr fun p inside => ?_)
    exact decide_eq_decide.mpr (same p.2 (member p inside).1 (member p inside).2)
  · rintro ⟨width, aligned⟩
    refine ⟨width, fun i least most shown => ?_⟩
    obtain ⟨line, inside⟩ := exist i least most
    exact aligned _ (mem_map_of_mem (mem_filter.mpr ⟨inside, decide_eq_true shown⟩))
  · rintro ⟨width, aligned⟩
    refine ⟨width, fun printed inside => ?_⟩
    obtain ⟨p, shown, rfl⟩ := mem_map.mp inside
    obtain ⟨inside, shown⟩ := mem_filter.mp shown
    exact aligned p.2 (member p inside).1 (member p inside).2 (of_decide_eq_true shown)

theorem readNumber_small {junk : List Char} {n : Nat} (small : n < 1000) :
    readNumber junk n = n := if_pos small

/-- Numbers up to `m` are aligned at the width of `m`. -/
theorem blanks_add_digits {i m : Nat} (le : i ≤ m) (small : m < 10 ^ 9) :
    numLength m - numLength i + (digits i).length = numLength m := by
  have := digits_length_mono le
  rw [numLength_eq small, numLength_eq (by omega : i < 10 ^ 9)]
  omega

theorem Range.Short.lists (positive : r.Positive) (short : r.Short lines.length) :
    Lists lines r (list scratch r.text lines) := by
  rw [lists_iff]
  cases r with
  | line n =>
    have read := @readNumber_small scratch.start n short
    simp only [Range.Positive, Range.Short] at positive short
    simp only [Range.ends, read, Shown, Range.first, Range.last]
    refine ⟨fun i _ _ => by omega, numLength n, fun i _ _ shown => ?_⟩
    rw [if_pos (by omega)]
    exact blanks_add_digits (by omega) (by omega)
  | between a b =>
    have read := @readNumber_small scratch.start a short.1
    simp only [Range.Positive, Range.Short] at positive short
    simp only [Range.ends, read, Shown, Range.first, Range.last]
    rcases short.2 with small | behind
    · rw [readNumber_small small]
      refine ⟨fun i _ _ => by omega, numLength b, fun i _ _ shown => ?_⟩
      rw [if_pos (by omega)]
      exact blanks_add_digits (by omega) (by omega)
    · exact ⟨fun i _ _ => by omega, 0, fun i _ _ shown => by omega⟩
  | startingAt a =>
    have read := @readNumber_small scratch.start a short.1
    simp only [Range.Positive, Range.Short] at positive short
    simp only [Range.ends, read, Shown, true_or, and_true, Range.first, Range.last]
    exact ⟨fun i _ _ => by omega, numLength lines.length, fun i _ most _ =>
      blanks_add_digits most short.2⟩
  | upTo b =>
    have read := @readNumber_small scratch.stop b short
    simp only [Range.Positive, Range.Short] at positive short
    simp only [Range.ends, read, Shown, Range.first, Range.last]
    refine ⟨fun i _ _ => by omega, numLength b, fun i _ _ shown => ?_⟩
    rw [if_pos (by omega)]
    exact blanks_add_digits (by omega) (by omega)
  | whole =>
    simp only [Range.ends, Shown, true_or, and_true, Range.first, Range.last]
    exact ⟨fun i _ _ => by omega, numLength lines.length, fun i _ most _ =>
      blanks_add_digits most short⟩

/-- More lines than `num_length` can count are not aligned. -/
theorem not_aligned {a : Nat} (small : a < 1000) (many : 10 ^ 9 ≤ lines.length)
    (aligned : ∃ width, ∀ i, a ≤ i → i ≤ lines.length →
      numLength lines.length - numLength i + (digits i).length = width) : False := by
  obtain ⟨width, same⟩ := aligned
  have none : numLength lines.length = 0 := by
    grind [numLength]
  have one := same a (Nat.le_refl a) (by omega)
  have two := same (10 ^ 9) (by omega) many
  have short := (@digits_length_le_iff a 3 (by decide)).mpr (by omega)
  have long := @digits_length_le_iff (10 ^ 9) 9 (by decide)
  omega

/-- `LIST` prints exactly its range, whatever is in the buffers of `convert_range`, exactly for
numbers below 1000 and lines that `num_length` can count. -/
theorem list_exact_iff (positive : r.Positive) :
    (∀ scratch, Lists lines r (list scratch r.text lines)) ↔
      lines = [] ∨ r.Short lines.length := by
  constructor
  · intro always
    refine or_iff_not_imp_left.mpr fun some => ?_
    have one : 1 ≤ lines.length := length_pos_iff.mpr some
    -- what is wrong with a number of four digits shows at one line
    have shown : ∀ scratch i, 1 ≤ i → i ≤ lines.length →
        (Shown (r.ends scratch) i ↔ r.first ≤ i ∧ i ≤ r.last lines.length) :=
      fun scratch => (lists_iff.mp (always scratch)).1
    have wrong : ∀ {n}, 1000 ≤ n → (∃ junk, readNumber junk n = 1) ∧
        ∃ junk, readNumber junk n = -1 := fun large =>
      ⟨exists_readNumber large (by decide) (by decide),
        exists_readNumber large (by decide) (by decide)⟩
    cases r with
    | line n =>
      by_contra large
      obtain ⟨⟨junk, read⟩, -⟩ := wrong (Nat.le_of_not_lt large)
      have := shown ⟨junk, []⟩ 1 (Nat.le_refl 1) one
      simp only [Range.ends, read, Shown, Range.first, Range.last, Range.Short] at this large
      omega
    | between a b =>
      simp only [Range.ends, Shown, Range.first, Range.last, Range.Short] at shown ⊢
      have small : a < 1000 := by
        by_contra large
        obtain ⟨⟨junk, read⟩, -⟩ := wrong (Nat.le_of_not_lt large)
        by_cases short : b < 1000
        · have := shown ⟨junk, []⟩ 1 (Nat.le_refl 1) one
          rw [read, readNumber_small short] at this
          obtain ⟨-, positive⟩ := positive
          omega
        · obtain ⟨⟨other, read'⟩, -⟩ := wrong (Nat.le_of_not_lt short)
          have := shown ⟨junk, other⟩ 1 (Nat.le_refl 1) one
          rw [read, read'] at this
          omega
      refine ⟨small, ?_⟩
      by_contra neither
      obtain ⟨-, junk, read⟩ := wrong (by omega : 1000 ≤ b)
      have := shown ⟨[], junk⟩ a positive.1 (by omega)
      rw [read, readNumber_small small] at this
      omega
    | startingAt a =>
      simp only [Range.ends, Shown, true_or, and_true, Range.first, Range.last, Range.Short]
        at shown ⊢
      have small : a < 1000 := by
        by_contra large
        obtain ⟨⟨junk, read⟩, -⟩ := wrong (Nat.le_of_not_lt large)
        have := shown ⟨junk, []⟩ 1 (Nat.le_refl 1) one
        rw [read] at this
        omega
      refine ⟨small, ?_⟩
      by_contra many
      obtain ⟨width, aligned⟩ := (lists_iff.mp (always ⟨[], []⟩)).2
      refine not_aligned small (by omega) ⟨width, fun i least most => aligned i ?_ most ?_⟩
      · exact le_trans positive least
      · rw [Range.ends, readNumber_small small, Shown]
        omega
    | upTo b =>
      by_contra large
      obtain ⟨-, junk, read⟩ := wrong (Nat.le_of_not_lt large)
      have := shown ⟨[], junk⟩ 1 (Nat.le_refl 1) one
      simp only [Range.ends, read, Shown, Range.first, Range.last, Range.Short] at this large
      omega
    | whole =>
      by_contra many
      obtain ⟨width, aligned⟩ := (lists_iff.mp (always ⟨[], []⟩)).2
      exact not_aligned (by decide : 1 < 1000) (Nat.le_of_not_lt many)
        ⟨width, fun i least most => aligned i least most ⟨Int.natCast_nonneg i, .inl rfl⟩⟩
  · rintro (rfl | short) scratch
    · have none : ∀ i, 1 ≤ i → ¬i ≤ ([] : List (List UInt8)).length := fun i least most =>
        absurd (le_trans least most) (by decide)
      exact lists_iff.mpr ⟨fun i least most => absurd most (none i least), 0,
        fun i least most => absurd most (none i least)⟩
    · exact short.lists positive

theorem list_exact_iff_three : (Range.between 2 3).Positive ∧ ∀ scratch,
    Lists [[97], [98], [99]] (.between 2 3) (list scratch (Range.between 2 3).text
      [[97], [98], [99]]) :=
  ⟨⟨by decide, by decide⟩, (@list_exact_iff _ (.between 2 3) ⟨by decide, by decide⟩).mpr
    (.inr ⟨by decide, .inl (by decide)⟩)⟩

/-- `LIST 1000:` with a digit in the buffer behind the four that are copied prints nothing of a
file of a thousand lines. -/
theorem list_loses_line : ∃ (lines : List (List UInt8)) (scratch : Scratch),
    lines.length = 1000 ∧ scratch.start = ['0'] ∧
    ¬Lists lines (.startingAt 1000) (list scratch (Range.startingAt 1000).text lines) := by
  refine ⟨replicate 1000 [], ⟨['0'], []⟩, length_replicate, rfl, fun lists => ?_⟩
  have count : (replicate 1000 ([] : List UInt8)).length = 1000 := length_replicate
  have shown := (lists_iff.mp lists).1 1000 (by decide) (le_of_eq count.symm)
  have read : readNumber ['0'] 1000 = 10000 := by decide +kernel
  simp only [Range.ends, read, Shown, Range.first, Range.last, count] at shown
  omega

end Xv6.Xvedit
