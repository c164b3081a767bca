import Mathlib.Data.List.Infix
import Xv6.Xvedit.File

/-!
# `FIND`

`find` scans a line with one position in the text. Behind a mismatch it starts over with the next
character, so that it misses an occurrence that begins inside a partial match or at the mismatch.
It says that nothing was found also if exactly one line matches.
-/

namespace Xv6.Xvedit

open List

/-- The loop of `find` over a line, at position `k` of the text. Lines and text are strings, so
that no character is the one behind the text. -/
def scan (text : List UInt8) : List UInt8 → Nat → Bool → Bool
  | [], _, found => found
  | c :: rest, k, found =>
    let k := if text[k]? = some c then k + 1 else 0
    scan text rest k (found || k == text.length)

/-- `line_matches`, from line `i` on. The array is on the stack, which is taken to be large enough
for it. -/
def lineMatches (text : List UInt8) : List (List UInt8) → Nat → List Nat
  | [], _ => []
  | line :: rest, i =>
    if scan text line 0 false then i :: lineMatches text rest (i + 1)
    else lineMatches text rest (i + 1)

/-- `find`: the line numbers that are printed, or none if it says that the text was not found. -/
def find (text : List UInt8) (lines : List (List UInt8)) : Option (List Nat) :=
  if 0 < ((lineMatches text lines 1).length : Int) - 1 then some (lineMatches text lines 1)
  else none

/-- The numbers of the lines that contain the text. -/
def containing (text : List UInt8) (lines : List (List UInt8)) : List Nat :=
  ((lines.zipIdx 1).filter fun p => text <:+: p.1).map Prod.snd

/-- A text that the scan gets over: each piece is a part of the text and one other character. -/
inductive Skips (text : List UInt8) : List UInt8 → Prop
  | nil : Skips text []
  | miss {k : Nat} {c : UInt8} {rest : List UInt8} (part : k < text.length)
    (other : text[k]? ≠ some c) (skips : Skips text rest) : Skips text (text.take k ++ c :: rest)

/-- The scan gets over what stands in front of some occurrence of the text. -/
def Meets (text line : List UInt8) : Prop :=
  ∃ before after, Skips text before ∧ line = before ++ text ++ after

variable {text line rest : List UInt8} {lines : List (List UInt8)} {k : Nat}

theorem scan_found (text line : List UInt8) (k : Nat) : scan text line k true = true := by
  induction line generalizing k with
  | nil => rfl
  | cons c rest ih => exact ih _

/-- At a mismatch, what was matched and the character are one piece. -/
theorem Meets.miss_iff {c : UInt8} (part : k < text.length) (other : text[k]? ≠ some c) :
    Meets text (text.take k ++ c :: rest) ↔ Meets text rest := by
  constructor
  · rintro ⟨before, after, skips, same⟩
    cases skips with
    | nil =>
      have here := congrArg (·[k]?) same
      simp [getElem?_append, part, Nat.min_eq_left (le_of_lt part)] at here
      exact absurd (by simp [part, here]) other
    | @miss m d before part' other' skips =>
      -- both pieces end at the first character that is not the text's
      have here := congrArg (·[k]?) same
      have there := congrArg (·[m]?) same
      have equal : m = k := by
        rcases Nat.lt_trichotomy m k with less | equal | more
        · grind
        · exact equal
        · grind
      subst equal
      rw [append_assoc, append_assoc, append_cancel_left_eq, cons_append,
        List.cons.injEq] at same
      exact ⟨before, after, skips, by rw [append_assoc]; exact same.2⟩
  · rintro ⟨before, after, skips, rfl⟩
    exact ⟨text.take k ++ c :: before, after, .miss part other skips, by simp⟩

/-- The scan from a partial match on. -/
theorem scan_iff (part : k < text.length) :
    scan text rest k false = true ↔ Meets text (text.take k ++ rest) := by
  induction rest generalizing k with
  | nil =>
    refine ⟨fun found => absurd found (by simp [scan]), ?_⟩
    rintro ⟨before, after, -, same⟩
    have := congrArg List.length same
    simp at this
    omega
  | cons c rest ih =>
    rw [scan]
    by_cases same : text[k]? = some c
    · have longer : text.take k ++ c :: rest = text.take (k + 1) ++ rest := by
        rw [take_add_one, same]
        simp
      simp only [same, if_true, Bool.false_or]
      rw [longer]
      by_cases whole : k + 1 = text.length
      · rw [beq_iff_eq.mpr whole, scan_found, whole, take_length]
        exact iff_of_true rfl ⟨[], rest, .nil, rfl⟩
      · rw [beq_false_of_ne whole]
        exact ih (by omega)
    · simp only [same, if_false, Bool.false_or]
      rw [beq_false_of_ne (by omega), ih (by omega), Meets.miss_iff part same]
      simp

theorem lineMatches_eq (text : List UInt8) (lines : List (List UInt8)) (i : Nat) :
    lineMatches text lines i =
      ((lines.zipIdx i).filter fun p => scan text p.1 0 false).map Prod.snd := by
  induction lines generalizing i with
  | nil => rfl
  | cons line rest ih =>
    rw [lineMatches, zipIdx_cons, filter_cons, ih]
    split <;> rfl

theorem exists_mem_containing (member : line ∈ lines) (inside : text <:+: line) :
    ∃ i, lines[i]? = some line ∧ i + 1 ∈ containing text lines := by
  obtain ⟨i, here⟩ := getElem?_of_mem member
  have pair : (line, i + 1) ∈ lines.zipIdx 1 :=
    mk_mem_zipIdx_iff_le_and_getElem?_sub.mpr ⟨by omega, by simpa using here⟩
  exact ⟨i, here, mem_map.mpr ⟨_, mem_filter.mpr ⟨pair, decide_eq_true inside⟩, rfl⟩⟩

/-- All lines that contain the text are found exactly if the scan meets it in each of them. -/
theorem lineMatches_eq_containing_iff (some : text ≠ []) :
    lineMatches text lines 1 = containing text lines ↔
      ∀ line ∈ lines, text <:+: line → Meets text line := by
  have found : ∀ line, scan text line 0 false = true ↔ Meets text line := fun line =>
    scan_iff (length_pos_iff.mpr some)
  rw [lineMatches_eq]
  constructor
  · intro same line member inside
    obtain ⟨i, here, listed⟩ := exists_mem_containing member inside
    rw [← same] at listed
    obtain ⟨⟨other, j⟩, filtered, rfl⟩ := mem_map.mp listed
    obtain ⟨pair', scanned⟩ := mem_filter.mp filtered
    obtain rfl : other = line := by
      have := (mk_mem_zipIdx_iff_le_and_getElem?_sub.mp pair').2
      simpa [here, eq_comm] using this
    exact (found other).mp scanned
  · intro meets
    refine congrArg _ (filter_congr fun p member => Bool.eq_iff_iff.mpr ?_)
    rw [found, decide_eq_true_iff]
    refine ⟨?_, meets p.1 (fst_mem_of_mem_zipIdx member)⟩
    rintro ⟨before, after, -, same⟩
    exact ⟨before, after, same.symm⟩

/-- `FIND` reports exactly the lines that contain the text exactly if there are none, or more than
one and the scan meets the text in each of them. -/
theorem find_exact_iff (some : text ≠ []) :
    find text lines = (if containing text lines = [] then none else .some (containing text lines)) ↔
      containing text lines = [] ∨ 2 ≤ (containing text lines).length ∧
        ∀ line ∈ lines, text <:+: line → Meets text line := by
  rw [← lineMatches_eq_containing_iff some, find]
  by_cases empty : containing text lines = []
  · have none : lineMatches text lines 1 = [] := by
      rw [(lineMatches_eq_containing_iff some).mpr, empty]
      intro line member inside
      obtain ⟨i, -, listed⟩ := exists_mem_containing member inside
      rw [empty] at listed
      contradiction
    simp [empty, none]
  · simp only [empty, if_false, false_or]
    constructor
    · intro same
      split at same
      · rename_i two
        have same := Option.some.inj same
        rw [same] at two
        exact ⟨by omega, same⟩
      · contradiction
    · rintro ⟨two, same⟩
      rw [same, if_pos (by omega)]

theorem find_exact_iff_two : ([97, 98] : List UInt8) ≠ [] ∧
    find [97, 98] [[97, 98], [99], [99, 97, 98]] = some [1, 3] := by
  have meets : ∀ line ∈ [[97, 98], [99], [99, 97, 98]], ([97, 98] : List UInt8) <:+: line →
      Meets [97, 98] line := by
    intro line member inside
    simp only [mem_cons, not_mem_nil, or_false] at member
    rcases member with rfl | rfl | rfl
    · exact ⟨[], [], .nil, rfl⟩
    · exact absurd inside (by decide)
    · exact ⟨[99], [], .miss (k := 0) (by decide) (by decide) .nil, rfl⟩
  exact ⟨by decide, (find_exact_iff (by decide)).mpr (.inr ⟨by decide, meets⟩)⟩

/-- One line is not reported, and of three lines the one where the text begins at a mismatch is
missing. -/
theorem find_misses : find [97, 98] [[97, 98]] = none ∧
    find [97, 98] [[97, 98], [97, 97, 98], [97, 98]] = some [1, 3] ∧
    containing [97, 98] [[97, 98]] = [1] ∧
    containing [97, 98] [[97, 98], [97, 97, 98], [97, 98]] = [1, 2, 3] := by decide

end Xv6.Xvedit
