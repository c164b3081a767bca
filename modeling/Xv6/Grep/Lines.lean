import Xv6.Grep.Match

/-!
# The lines that `grep` writes

The first `m` bytes of `buf` are a list. A run of `grep` is given by the pieces that its calls of
`read` return; `read` returns 0 behind the last of them.
-/

namespace Xv6.Grep

open List

/-- `'\n'`. -/
def newline : UInt8 := 10

/-- `sizeof(buf)`. -/
def bufSize : Nat := 1024

/-- `strchr`: the offset of a character before the NUL. -/
def strchr (c : UInt8) : List UInt8 → Option Nat
  | [] => none
  | d :: s => if d = 0 then none else if d = c then some 0 else (strchr c s).map (· + 1)

theorem strchr_lt {c : UInt8} {s : List UInt8} {q : Nat} (found : strchr c s = some q) :
    q < s.length := by
  induction s generalizing q with
  | nil => cases found
  | cons d s ih =>
    grind [strchr, Option.map_eq_some_iff]

/-- The inner loop of `grep`: what it writes, and what is left at `p` when it ends. -/
def scan (pattern p : List UInt8) : List UInt8 × List UInt8 :=
  match _found : strchr newline p with
  | none => ([], p)
  | some q =>
    let (out, rest) := scan pattern (p.drop (q + 1))
    (if matchText pattern (p.take q) then p.take (q + 1) ++ out else out, rest)
termination_by p.length
decreasing_by
  have inside := strchr_lt _found
  rw [length_drop]
  omega

/-- The outer loop of `grep`, with the bytes carried over in `buf`: what it writes, and what is in
`buf` when it ends. -/
def grepLoop (pattern buf : List UInt8) : List (List UInt8) → List UInt8 × List UInt8
  | [] => ([], buf)
  | piece :: pieces =>
    let (out, p) := scan pattern (buf ++ piece)
    -- `if(p == buf) m = 0`
    let buf := if p.length = (buf ++ piece).length then [] else p
    let (more, buf) := grepLoop pattern buf pieces
    (out ++ more, buf)

/-- `grep`: what it writes. -/
def grep (pattern : List UInt8) (pieces : List (List UInt8)) : List UInt8 :=
  (grepLoop pattern [] pieces).1

/-- Every piece is one that the call of `read` for it may return. -/
def Readable (pattern buf : List UInt8) : List (List UInt8) → Prop
  | [] => True
  | piece :: pieces =>
    piece ≠ [] ∧ piece.length ≤ bufSize - buf.length - 1 ∧
      Readable pattern (grepLoop pattern buf [piece]).2 pieces

/-- The lines of a stream that end with a newline. -/
def lines (stream : List UInt8) : List (List UInt8) := (stream.splitOn newline).dropLast

/-- The lines that match, with their newlines. -/
def selected (pattern stream : List UInt8) : List UInt8 :=
  ((lines stream).filter (matchText pattern)).flatMap (· ++ [newline])

/-- No line is longer than 1022 bytes. -/
def Short (stream : List UInt8) : Prop :=
  ∀ line, line <:+: stream → newline ∉ line → line.length ≤ 1022

/-! ## The inner loop -/

section Scan

variable {pattern line rest text : List UInt8} {c : UInt8}

theorem strchr_none (absent : c ∉ text) : strchr c text = none := by
  induction text with
  | nil => rfl
  | cons d s ih =>
    rw [mem_cons, not_or] at absent
    rw [strchr, if_neg (Ne.symm absent.1), ih absent.2]
    split <;> rfl

theorem strchr_append (noNul : 0 ∉ line) (absent : c ∉ line) (char : c ≠ 0) :
    strchr c (line ++ c :: rest) = some line.length := by
  induction line with
  | nil => rw [nil_append, strchr, if_neg char, if_pos rfl, length_nil]
  | cons d s ih =>
    grind [strchr]

/-- A buffer without a newline. -/
theorem scan_none (tail : newline ∉ text) : scan pattern text = ([], text) := by
  rw [scan]
  split
  · rfl
  · next found =>
    rw [strchr_none tail] at found
    cases found

/-- One turn of the inner loop. -/
theorem scan_line (noNul : 0 ∉ line) (inside : newline ∉ line) :
    scan pattern (line ++ newline :: rest) =
      ((if matchText pattern line then line ++ [newline] else []) ++ (scan pattern rest).1,
        (scan pattern rest).2) := by
  have here : strchr newline (line ++ newline :: rest) = some line.length :=
    strchr_append noNul inside (by decide)
  have split : line ++ newline :: rest = line ++ [newline] ++ rest := by simp
  have length : (line ++ [newline]).length = line.length + 1 := by simp
  rw [scan]
  split
  · next found =>
    rw [here] at found
    cases found
  · next q found =>
    rw [here] at found
    cases found
    rw [take_left, split, ← length, drop_left, take_left]
    dsimp only
    split <;> simp

theorem lines_tail (tail : newline ∉ text) : lines text = [] := by
  rw [lines, splitOn_eq_singleton tail, dropLast_singleton]

theorem lines_line (inside : newline ∉ line) :
    lines (line ++ newline :: rest) = line :: lines rest := by
  have first : line.splitOn newline = [line] := splitOn_eq_singleton inside
  grind [splitOn, lines, splitOnP_append_cons, dropLast_cons_of_ne_nil,
    splitOnP_ne_nil]

theorem selected_tail (tail : newline ∉ text) : selected pattern text = [] := by
  rw [selected, lines_tail tail]
  rfl

theorem selected_line (inside : newline ∉ line) :
    selected pattern (line ++ newline :: rest) =
      (if matchText pattern line then line ++ [newline] else []) ++ selected pattern rest := by
  rw [selected, lines_line inside, filter_cons]
  split
  · rw [flatMap_cons, selected]
  · rw [nil_append, selected]

/-- Texts are made of lines and a rest without a newline. -/
theorem by_lines {P : List UInt8 → Prop} (tail : ∀ text, newline ∉ text → P text)
    (line : ∀ line rest, newline ∉ line → P rest → P (line ++ newline :: rest))
    (text : List UInt8) : P text := by
  induction size : text.length using Nat.strong_induction_on generalizing text with
  | _ n ih =>
    by_cases member : newline ∈ text
    · obtain ⟨first, rest, rfl, inside⟩ := eq_append_cons_of_mem member
      refine line first rest inside (ih rest.length ?_ rest rfl)
      rw [← size, length_append, length_cons]
      omega
    · exact tail text member

/-- What the inner loop does with a text. -/
structure Scanned (pattern text : List UInt8) (result : List UInt8 × List UInt8) : Prop where
  out : result.1 = selected pattern text
  suffix : result.2 <:+ text
  tail : newline ∉ result.2
  shorter : newline ∈ text → result.2.length < text.length
  /-- The rest goes on with what comes next. -/
  append : ∀ more, selected pattern (text ++ more) = result.1 ++ selected pattern (result.2 ++ more)

theorem scan_scanned (pattern : List UInt8) (noNul : 0 ∉ text) :
    Scanned pattern text (scan pattern text) := by
  induction text using by_lines with
  | tail text tail =>
    constructor <;> grind [scan_none, selected_tail]
  | line line rest inside ih =>
    rw [mem_append, mem_cons, not_or, not_or] at noNul
    have done := ih noNul.2.2
    rw [scan_line noNul.1 inside]
    refine ⟨?_, ?_, done.tail, fun _ => ?_, fun more => ?_⟩
    all_goals grind [selected_line, suffix_cons, cases Scanned]

end Scan

/-! ## The outer loop -/

section Loop

variable {pattern buf piece : List UInt8} {pieces : List (List UInt8)}

theorem grepLoop_cons (pattern buf piece : List UInt8) (pieces : List (List UInt8)) :
    grepLoop pattern buf (piece :: pieces) =
      ((scan pattern (buf ++ piece)).1 ++
          (grepLoop pattern (grepLoop pattern buf [piece]).2 pieces).1,
        (grepLoop pattern (grepLoop pattern buf [piece]).2 pieces).2) := rfl

/-- A piece that brings no newline is lost, and what was carried over with it. -/
theorem carried_tail (tail : newline ∉ buf ++ piece) : (grepLoop pattern buf [piece]).2 = [] := by
  rw [grepLoop, scan_none tail]
  exact if_pos rfl

/-- Behind the last newline of a piece, the rest is carried over. -/
theorem carried_line (noNul : 0 ∉ buf ++ piece) (ends : newline ∈ piece) :
    (grepLoop pattern buf [piece]).2 = (scan pattern (buf ++ piece)).2 := by
  have shorter := (scan_scanned pattern noNul).shorter (mem_append_right buf ends)
  rw [grepLoop]
  exact if_neg (ne_of_lt shorter)

/-- What is carried over comes from the end of what was read, and has no newline. -/
theorem carried (pattern : List UInt8) (noNul : 0 ∉ buf ++ piece) :
    (grepLoop pattern buf [piece]).2 <:+ buf ++ piece ∧
      newline ∉ (grepLoop pattern buf [piece]).2 := by
  have done := scan_scanned pattern noNul
  show (if _ then [] else _) <:+ _ ∧ _ ∉ (if _ then [] else _)
  split
  · exact ⟨nil_suffix, not_mem_nil⟩
  · exact ⟨done.suffix, done.tail⟩

theorem grepLoop_lost (tail : newline ∉ buf ++ piece) :
    (grepLoop pattern buf (piece :: pieces)).1 = (grepLoop pattern [] pieces).1 := by
  rw [grepLoop_cons, carried_tail tail, scan_none tail, nil_append]

/-- Pieces without a newline: nothing is written. -/
theorem grepLoop_tail (start : newline ∉ buf) (tail : newline ∉ pieces.flatten) :
    (grepLoop pattern buf pieces).1 = [] := by
  induction pieces generalizing buf with
  | nil => rfl
  | cons piece pieces ih =>
    grind [grepLoop_lost]

/-- A piece that brings a newline: the lines of the stream so far are written. -/
theorem grepLoop_line (noNul : 0 ∉ buf ++ piece) (ends : newline ∈ piece) (more : List UInt8) :
    (grepLoop pattern buf (piece :: pieces)).1 = selected pattern (buf ++ (piece ++ more)) ↔
      (grepLoop pattern (grepLoop pattern buf [piece]).2 pieces).1 =
        selected pattern ((grepLoop pattern buf [piece]).2 ++ more) := by
  rw [grepLoop_cons, ← append_assoc, (scan_scanned pattern noNul).append,
    carried_line noNul ends]
  exact append_right_inj _

/-- No piece without a newline comes before one with a newline. -/
def Unbroken (pieces : List (List UInt8)) : Prop :=
  pieces.Pairwise fun earlier later => newline ∈ later → newline ∈ earlier

instance (pieces : List (List UInt8)) : Decidable (Unbroken pieces) :=
  inferInstanceAs (Decidable (pieces.Pairwise _))

theorem grepLoop_unbroken (noNul : 0 ∉ buf ++ pieces.flatten) (start : newline ∉ buf)
    (unbroken : Unbroken pieces) :
    (grepLoop pattern buf pieces).1 = selected pattern (buf ++ pieces.flatten) := by
  induction pieces generalizing buf with
  | nil =>
    rw [flatten_nil, append_nil, selected_tail start]
    rfl
  | cons piece pieces ih =>
    obtain ⟨first, later⟩ := pairwise_cons.mp unbroken
    rw [flatten_cons, ← append_assoc, mem_append, not_or] at noNul
    rw [flatten_cons]
    by_cases ends : newline ∈ piece
    · grind [carried, grepLoop_line, Unbroken]
    grind [mem_flatten, grepLoop_tail, selected_tail]

/-- The empty pattern matches every line. -/
theorem matchText_nil (text : List UInt8) : matchText [] text = true := by
  rw [matchText, if_neg (by simp)]
  cases text <;> simp [matchAnywhere, matchhere]

/-- With the empty pattern everything up to the last newline is written. -/
theorem selected_nil_append {text more : List UInt8} (tail : newline ∉ text)
    (ends : newline ∈ more) : selected [] (text ++ more) = text ++ selected [] more := by
  obtain ⟨line, rest, rfl, inside⟩ := eq_append_cons_of_mem ends
  grind [selected_line, matchText_nil]

/-- With the empty pattern nothing is written that is not selected. -/
theorem grepLoop_nil_length (noNul : 0 ∉ buf ++ pieces.flatten) (start : newline ∉ buf) :
    (grepLoop [] buf pieces).1.length ≤ (selected [] (buf ++ pieces.flatten)).length := by
  induction pieces generalizing buf with
  | nil => exact Nat.zero_le _
  | cons piece pieces ih =>
    rw [flatten_cons, ← append_assoc, mem_append, not_or] at noNul
    rw [flatten_cons, ← append_assoc]
    by_cases ends : newline ∈ piece
    · obtain ⟨suffix, tail⟩ := carried [] noNul.1
      have apart : 0 ∉ (grepLoop [] buf [piece]).2 ++ pieces.flatten :=
        not_mem_append (fun member => noNul.1 (suffix.subset member)) noNul.2
      rw [(scan_scanned [] noNul.1).append, grepLoop_cons, ← carried_line noNul.1 ends,
        length_append, length_append]
      exact Nat.add_le_add_left (ih apart tail) _
    · have none : newline ∉ buf ++ piece := not_mem_append start ends
      rw [grepLoop_lost none]
      have more : (grepLoop [] [] pieces).1.length ≤ (selected [] pieces.flatten).length :=
        ih noNul.2 not_mem_nil
      by_cases later : newline ∈ pieces.flatten
      all_goals grind [selected_nil_append, grepLoop_tail]

/-- A piece without a newline before one with a newline is missing in what the empty pattern
writes. -/
theorem Unbroken.of_grepLoop (noNul : 0 ∉ buf ++ pieces.flatten) (start : newline ∉ buf)
    (nonempty : ∀ piece ∈ pieces, piece ≠ [])
    (right : (grepLoop [] buf pieces).1 = selected [] (buf ++ pieces.flatten)) :
    Unbroken pieces := by
  induction pieces generalizing buf with
  | nil => exact List.Pairwise.nil
  | cons piece pieces ih =>
    rw [flatten_cons, ← append_assoc, mem_append, not_or] at noNul
    rw [flatten_cons] at right
    obtain ⟨some, nonempty⟩ := forall_mem_cons.mp nonempty
    by_cases ends : newline ∈ piece
    · obtain ⟨suffix, tail⟩ := carried [] noNul.1
      refine List.Pairwise.cons (fun _ _ _ => ends) (ih ?_ tail nonempty ?_)
      · exact not_mem_append (fun member => noNul.1 (suffix.subset member)) noNul.2
      · exact (grepLoop_line noNul.1 ends _).mp right
    · have none : newline ∉ buf ++ piece := not_mem_append start ends
      have later : newline ∉ pieces.flatten := by
        intro later
        have bound : (grepLoop [] [] pieces).1.length ≤ (selected [] pieces.flatten).length :=
          grepLoop_nil_length noNul.2 not_mem_nil
        rw [grepLoop_lost none, ← append_assoc, selected_nil_append none later] at right
        rw [right, length_append, length_append] at bound
        have size := length_pos_iff.mpr some
        omega
      have all : ∀ other ∈ pieces, newline ∉ other := by
        intro other member inside
        exact later (mem_flatten.mpr ⟨other, member, inside⟩)
      refine List.Pairwise.cons (fun other member inside => absurd inside (all other member)) ?_
      exact List.Pairwise.imp_of_mem (fun _ member _ inside => absurd inside (all _ member))
        (pairwise_of_forall fun _ _ => trivial)

/-- What is carried over is the end of the stream so far. -/
theorem grepLoop_buf (pattern : List UInt8) (noNul : 0 ∉ buf ++ pieces.flatten)
    (start : newline ∉ buf) :
    (grepLoop pattern buf pieces).2 <:+ buf ++ pieces.flatten ∧
      newline ∉ (grepLoop pattern buf pieces).2 := by
  induction pieces generalizing buf with
  | nil =>
    rw [flatten_nil, append_nil]
    exact ⟨suffix_rfl, start⟩
  | cons piece pieces ih =>
    rw [flatten_cons, ← append_assoc, mem_append, not_or] at noNul
    rw [flatten_cons, ← append_assoc]
    obtain ⟨suffix, tail⟩ := carried pattern noNul.1
    obtain ⟨behind, rest⟩ := ih (not_mem_append (fun member => noNul.1 (suffix.subset member))
      noNul.2) tail
    obtain ⟨before, split⟩ := suffix
    refine ⟨behind.trans ⟨before, ?_⟩, rest⟩
    rw [← append_assoc, split]

end Loop

theorem Readable.nonempty {pattern buf : List UInt8} {pieces : List (List UInt8)}
    (readable : Readable pattern buf pieces) : ∀ piece ∈ pieces, piece ≠ [] := by
  induction pieces generalizing buf with
  | nil => exact fun _ member => absurd member not_mem_nil
  | cons piece pieces ih => exact forall_mem_cons.mpr ⟨readable.1, ih readable.2.2⟩

/-- On a stream of lines of at most 1022 bytes there is room for every `read`, so that `grep` ends
at the end of the stream. It writes the lines that match, for every pattern, just if the stream does
not arrive with a piece without a newline before one with a newline. -/
theorem grep_iff_unbroken (stream : List UInt8) (noNul : 0 ∉ stream) (short : Short stream)
    (pieces : List (List UInt8)) (whole : pieces.flatten = stream)
    (readable : ∀ pattern, Readable pattern [] pieces) :
    (∀ pattern before, before <+: pieces →
        (grepLoop pattern [] before).2.length < bufSize - 1) ∧
      ((∀ pattern, grep pattern pieces = selected pattern stream) ↔ Unbroken pieces) := by
  subst whole
  refine ⟨fun pattern before earlier => ?_, fun right => ?_, fun unbroken pattern => ?_⟩
  · obtain ⟨after, rfl⟩ := earlier
    rw [flatten_append] at noNul short
    have start : newline ∉ ([] : List UInt8) := not_mem_nil
    obtain ⟨suffix, tail⟩ := grepLoop_buf pattern
      (fun member => noNul (mem_append_left _ member)) start
    have part := suffix.isInfix.trans (prefix_append before.flatten after.flatten).isInfix
    exact lt_of_le_of_lt (short _ part tail) (by decide)
  · exact Unbroken.of_grepLoop noNul not_mem_nil (readable []).nonempty (right [])
  · exact grepLoop_unbroken noNul not_mem_nil unbroken

theorem short_of_length {stream : List UInt8} (few : stream.length ≤ 1022) : Short stream :=
  fun _ part _ => part.length_le.trans few

/-- The first line ends in the first piece, the second one in the second piece. -/
theorem grep_two_pieces : ¬∃ pattern, grep pattern [[97, 10, 98], [99, 10]] ≠
    selected pattern [97, 10, 98, 99, 10] := by
  have readable (pattern : List UInt8) : Readable pattern [] [[97, 10, 98], [99, 10]] := by
    have noNul : (0 : UInt8) ∉ [] ++ [97, 10, 98] := by decide
    obtain ⟨suffix, -⟩ := carried pattern noNul
    have bound := suffix.length_le
    refine ⟨by decide, by decide, by decide, ?_, trivial⟩
    simp only [nil_append, length_cons, length_nil, bufSize] at bound ⊢
    omega
  have unbroken : Unbroken [[97, 10, 98], [99, 10]] := by decide
  have all := (grep_iff_unbroken [97, 10, 98, 99, 10] (by decide) (short_of_length (by decide))
    _ rfl readable).2.mpr unbroken
  rintro ⟨pattern, wrong⟩
  exact wrong (all pattern)

/-- A line of two characters in two pieces: the first character is missing. -/
theorem grep_line_broken : (0 : UInt8) ∉ [97, 98, 10] ∧ Short [97, 98, 10] ∧
    (¬∃ pattern, ¬ Readable pattern [] [[97], [98, 10]]) ∧
    grep [] [[97], [98, 10]] = [98, 10] ∧ selected [] [97, 98, 10] = [97, 98, 10] := by
  have tail : newline ∉ [] ++ [97] := by decide
  refine ⟨by decide, short_of_length (by decide), ?_, ?_, ?_⟩
  · rintro ⟨pattern, broken⟩
    refine broken ⟨by decide, by decide, by decide, ?_, trivial⟩
    rw [carried_tail tail]
    decide
  · rw [grep, grepLoop_lost tail, grepLoop_unbroken (by decide) (by decide)
      (pairwise_singleton _ _)]
    exact selected_line (by decide : newline ∉ [98]) |>.trans (by rw [matchText_nil]; rfl)
  · exact selected_line (by decide : newline ∉ [97, 98]) |>.trans (by rw [matchText_nil]; rfl)

end Xv6.Grep
