import Mathlib.Data.List.Forall2
import Xv6.Param

/-!
# `parsecmd` of `ezsh` and of `xvedit`

Both read a line into a table of `MAX_ARGS` words. A new word begins behind each whitespace
character, whatever stands there, and every word has a block of fixed size; nothing is checked. The
shell has 120 bytes for the first word and never terminates a word, the editor has 5 and terminates
each word at the whitespace behind it. `argc` is the number of whitespace characters, so that the
last piece of the line is not counted, and its word is replaced by a null pointer.

A store outside of a block or of the table ends a run of the model.
-/

namespace Xv6.User.Parsecmd

open List

/-- `MAX_ARGS`. -/
def maxArgs : Nat := 10

/-- `whitespace`. -/
def whitespace : List Char := [' ', '\t', '\r', '\n', '\x0b']

/-- `isSpace`. -/
def isSpace (c : Char) : Bool := whitespace.contains c

/-- The loop of `gets`, with room for a number of bytes besides the terminator. -/
def getsLoop : Nat → List Char → List Char
  | 0, _ => []
  | _ + 1, [] => []
  | room + 1, c :: input => if c = '\n' ∨ c = '\r' then [c] else c :: getsLoop room input

/-- The string in a block of bytes. -/
def cstring (block : List Char) : List Char := block.takeWhile (· ≠ '\x00')

/-- `getcmd` with a buffer of 100 bytes, on the bytes that standard input has; nothing at its
end. -/
def getcmd (input : List Char) : Option (List Char) :=
  let buf := cstring (getsLoop 99 input)
  if buf = [] then none else some buf

/-- The first store outside of a table or block, or the use of a null pointer. -/
inductive Overrun where
  /-- `argv[k]`. -/
  | slot (k : Nat)
  /-- `argv[k][j]`. -/
  | byte (k j : Nat)
  | null
  deriving DecidableEq

/-- What tells the parsers apart: the bytes of the first word, and whether words are terminated. -/
structure Tables where
  first : Nat
  terminates : Bool

/-- The bytes allocated for a word. -/
def Tables.size (t : Tables) (k : Nat) : Nat := if k = 0 then t.first else 30

/-- A block from `malloc`, with whatever it holds. -/
def malloc (junk : Nat → Char) (size : Nat) : List Char := (range size).map junk

/-- `argv[k][j] = c`. -/
def store (k : Nat) (word : List Char) (j : Nat) (c : Char) : Except Overrun (List Char) :=
  if j < word.length then .ok (word.set j c) else .error (.byte k j)

/-- The variables of the loop: the words before `argv[arg]`, that word, `i` and `offset`. -/
structure Loop where
  words : List (List Char)
  word : List Char
  i : Nat
  offset : Nat

/-- One turn of the loop; `junk k` is what the block for word `k` holds. -/
def step (t : Tables) (junk : Nat → Nat → Char) (s : Loop) (c : Char) : Except Overrun Loop :=
  let arg := s.words.length
  if isSpace c then do
    let word ← if t.terminates then store arg s.word (s.i - s.offset) '\x00' else .ok s.word
    if arg + 1 < maxArgs then
      .ok ⟨s.words ++ [word], malloc (junk (arg + 1)) 30, s.i + 1, s.i + 1⟩
    else .error (.slot (arg + 1))
  else do
    let word ← store arg s.word (s.i - s.offset) c
    .ok { s with word := word, i := s.i + 1 }

/-- `struct command`; the table has `MAX_ARGS` pointers. -/
structure Command where
  argc : Nat
  argv : List (Option (List Char))

/-- The part that the two parsers share: the loop, and null pointers from `argv[argc]` on. -/
def parse (t : Tables) (junk : Nat → Nat → Char) (line : List Char) : Except Overrun Command := do
  let s ← line.foldlM (step t junk) ⟨[], malloc (junk 0) t.first, 0, 0⟩
  let argc := s.words.length
  .ok ⟨argc, s.words.map some ++ replicate (maxArgs - argc) none⟩

/-! ### What the loop reads -/

/-- The pieces of a line between its whitespace characters. -/
def pieces (line : List Char) : List (List Char) := line.splitOnP isSpace

/-- A terminator is counted for the word before another one. -/
def Tables.extra (t : Tables) (more : Bool) : Nat := if t.terminates && more then 1 else 0

/-- There are entries in the table for the pieces and bytes for each. -/
def Tables.Fits (t : Tables) (pieces : List (List Char)) : Prop :=
  pieces.length ≤ maxArgs ∧ ∀ k piece, pieces[k]? = some piece →
    piece.length + t.extra (k + 1 < pieces.length) ≤ t.size k

/-- A finished word holds a piece of the line. -/
def Tables.Holds (t : Tables) (word piece : List Char) : Prop :=
  piece ++ (if t.terminates then ['\x00'] else []) <+: word

/-- The loop has read these pieces; the last one goes on. -/
structure Reads (t : Tables) (s : Loop) (front : List (List Char)) (last : List Char) : Prop where
  words : Forall₂ t.Holds s.words front
  sizes : ∀ k word, s.words[k]? = some word → word.length = t.size k
  current : last <+: s.word
  size : s.word.length = t.size front.length
  position : s.i = s.offset + last.length
  slots : front.length < maxArgs
  fits : ∀ k piece, front[k]? = some piece → piece.length + t.extra true ≤ t.size k

variable {t : Tables} {junk : Nat → Nat → Char} {s : Loop} {front : List (List Char)}
  {last word : List Char} {c : Char}

/-- A store right behind a string that a block holds. -/
theorem store_ok {k : Nat} (held : last <+: word) (c : Char) :
    (last.length < word.length → ∃ later, store k word last.length c = .ok later ∧
      later.length = word.length ∧ last ++ [c] <+: later) ∧
    (word.length ≤ last.length → store k word last.length c = .error (.byte k last.length)) := by
  refine ⟨fun room => ⟨word.set last.length c, if_pos room, length_set, ?_⟩,
    fun full => if_neg (Nat.not_lt.mpr full)⟩
  obtain ⟨rest, rfl⟩ := held
  cases rest with
  | nil => simp at room
  | cons old rest => exact ⟨rest, by simp⟩

/-- Before the first character. -/
theorem Reads.init : Reads t ⟨[], malloc (junk 0) t.first, 0, 0⟩ [] [] where
  words := .nil
  sizes := nofun
  current := nil_prefix
  size := by simp [malloc, Tables.size]
  position := rfl
  slots := by decide
  fits := nofun

namespace Reads

variable (junk) (reads : Reads t s front last)
include reads

theorem length_words : s.words.length = front.length := reads.words.length_eq

theorem length_last : last.length ≤ t.size front.length :=
  reads.size ▸ reads.current.length_le

theorem at_last : s.i - s.offset = last.length := by
  rw [reads.position, Nat.add_sub_cancel_left]

/-- Another character of a word is stored if its block has a byte left. -/
theorem step_char (char : isSpace c = false) :
    (last.length < t.size front.length →
      ∃ later, step t junk s c = .ok later ∧ Reads t later front (last ++ [c])) ∧
    (t.size front.length ≤ last.length → ∃ overrun, step t junk s c = .error overrun) := by
  obtain ⟨stored, full⟩ := store_ok (k := s.words.length) reads.current c
  rw [reads.size] at stored full
  simp only [step, char, Bool.false_eq_true, if_false, reads.at_last]
  refine ⟨fun room => ?_, fun long => ⟨_, by rw [full long]; rfl⟩⟩
  obtain ⟨word, done, length, held⟩ := stored room
  rw [done]
  refine ⟨_, rfl, { reads with current := held, size := length, position := ?_ }⟩
  simp only [reads.position, length_append, length_singleton]
  omega

/-- Whitespace finishes the word if there is room for its terminator and for another word. -/
theorem step_space (space : isSpace c = true) :
    (last.length + t.extra true ≤ t.size front.length → front.length + 1 < maxArgs →
      ∃ later, step t junk s c = .ok later ∧ Reads t later (front ++ [last]) []) ∧
    (¬ (last.length + t.extra true ≤ t.size front.length ∧ front.length + 1 < maxArgs) →
      ∃ overrun, step t junk s c = .error overrun) := by
  obtain ⟨stored, full⟩ := store_ok (k := s.words.length) reads.current '\x00'
  have fitting := reads.length_last
  rw [reads.size] at stored full
  have next : ∀ word, word.length = t.size front.length → t.Holds word last →
      last.length + t.extra true ≤ t.size front.length → front.length + 1 < maxArgs →
      Reads t ⟨s.words ++ [word], malloc (junk (s.words.length + 1)) 30, s.i + 1, s.i + 1⟩
        (front ++ [last]) [] := fun word length held room slot => {
    words := rel_append reads.words (.cons held .nil)
    sizes := fun k other found => by
      have known := reads.sizes k other
      have count := reads.length_words
      grind
    current := nil_prefix
    size := by simp [malloc, Tables.size]
    position := rfl
    slots := by simpa using slot
    fits := fun k piece found => by
      obtain found | ⟨rfl, rfl⟩ : front[k]? = some piece ∨ k = front.length ∧ piece = last := by
        grind
      · exact reads.fits k piece found
      · exact room }
  simp only [step, space, if_true, reads.at_last, reads.length_words] at stored full next ⊢
  unfold Tables.extra at *
  cases ends : t.terminates with
  | false =>
    simp only [ends, Bool.false_and, Bool.false_eq_true, if_false] at next ⊢
    refine ⟨fun room slot => ?_, fun refused => ?_⟩
    · refine ⟨_, if_pos slot, next s.word reads.size ?_ room slot⟩
      simpa [Tables.Holds, ends] using reads.current
    · exact ⟨_, if_neg fun slot => refused ⟨fitting, slot⟩⟩
  | true =>
    simp only [ends, Bool.true_and, if_true] at next ⊢
    refine ⟨fun room slot => ?_, fun refused => ?_⟩
    · obtain ⟨word, done, length, held⟩ := stored room
      rw [done]
      refine ⟨_, if_pos slot, next word length ?_ room slot⟩
      simpa [Tables.Holds, ends] using held
    · by_cases room : last.length < t.size front.length
      · obtain ⟨word, done, -⟩ := stored room
        rw [done]
        exact ⟨_, if_neg fun slot => refused ⟨room, slot⟩⟩
      · rw [full (Nat.not_lt.mp room)]
        exact ⟨_, rfl⟩

end Reads

/-- Where pieces fit, each does. -/
theorem Tables.Fits.piece {piece : List Char} {rest : List (List Char)}
    (fits : t.Fits (front ++ piece :: rest)) :
    piece.length + t.extra (rest ≠ []) ≤ t.size front.length := by
  have room := fits.2 front.length piece (by simp)
  have more : decide (front.length + 1 < (front ++ piece :: rest).length) = decide (rest ≠ []) := by
    cases rest <;> simp
  rwa [more] at room

/-- The pieces read so far fit. -/
theorem Reads.fits_all (reads : Reads t s front last) : t.Fits (front ++ [last]) := by
  refine ⟨by simpa using Nat.succ_le_of_lt reads.slots, fun k piece found => ?_⟩
  obtain ⟨found, less⟩ | ⟨rfl, rfl⟩ : (front[k]? = some piece ∧ k < front.length) ∨
      k = front.length ∧ piece = last := by grind
  · simpa [less] using reads.fits k piece found
  · simpa [Tables.extra] using reads.length_last

/-- The loop over the rest of a line: the word at hand goes on with the first piece of the rest. -/
theorem loop_spec (junk : Nat → Nat → Char) (reads : Reads t s front last) (rest : List Char) :
    (∀ later, rest.foldlM (step t junk) s = .ok later → ∃ words word,
      front ++ (pieces rest).modifyHead (last ++ ·) = words ++ [word] ∧ Reads t later words word) ∧
    ∀ overrun, rest.foldlM (step t junk) s = .error overrun →
      ¬ t.Fits (front ++ (pieces rest).modifyHead (last ++ ·)) := by
  induction rest generalizing s front last with
  | nil =>
    refine ⟨fun later ends => ?_, nofun⟩
    obtain rfl : s = later := Except.ok.inj ends
    exact ⟨front, last, by simp [pieces], reads⟩
  | cons c rest ih =>
    rw [foldlM_cons, pieces, splitOnP_cons_eq_if_modifyHead]
    obtain ⟨piece, more, split⟩ := exists_cons_of_ne_nil (splitOnP_ne_nil isSpace rest)
    by_cases space : isSpace c = true
    · obtain ⟨done, failed⟩ := reads.step_space junk space
      rw [if_pos space, modifyHead_cons, append_nil]
      by_cases room : last.length + t.extra true ≤ t.size front.length ∧ front.length + 1 < maxArgs
      · obtain ⟨later, turn, reads⟩ := done room.1 room.2
        rw [turn]
        have same : front ++ [last] ++ (pieces rest).modifyHead ([] ++ ·) =
            front ++ last :: rest.splitOnP isSpace := by
          simp [pieces, split]
        have whole := ih reads
        rw [same] at whole
        exact whole
      · obtain ⟨overrun, turn⟩ := failed room
        rw [turn]
        refine ⟨nofun, fun _ _ fits => room ⟨?_, ?_⟩⟩
        · simpa [split] using fits.piece
        · have slots := fits.1
          rw [split] at slots
          simp at slots
          omega
    · obtain ⟨done, failed⟩ := reads.step_char junk (Bool.eq_false_iff.mpr space)
      rw [if_neg space, modifyHead_modifyHead]
      by_cases room : last.length < t.size front.length
      · obtain ⟨later, turn, reads⟩ := done room
        rw [turn]
        have same : front ++ (pieces rest).modifyHead (last ++ [c] ++ ·) =
            front ++ (rest.splitOnP isSpace).modifyHead ((last ++ ·) ∘ (c :: ·)) := by
          simp [pieces, split]
        have whole := ih reads
        rw [same] at whole
        exact whole
      · obtain ⟨overrun, turn⟩ := failed (Nat.not_lt.mp room)
        rw [turn]
        refine ⟨nofun, fun _ _ fits => room ?_⟩
        rw [split] at fits
        have bytes := fits.piece
        simp at bytes
        omega

/-- The loop gets through a line just if its pieces fit. The words before the last one are those of
the command. -/
theorem parse_spec (t : Tables) (junk : Nat → Nat → Char) (line : List Char) :
    (t.Fits (pieces line) → ∃ words, Forall₂ t.Holds words (pieces line).dropLast ∧
      (∀ k word, words[k]? = some word → word.length = t.size k) ∧
      parse t junk line = .ok ⟨words.length,
        words.map some ++ replicate (maxArgs - words.length) none⟩) ∧
    (¬ t.Fits (pieces line) → ∃ overrun, parse t junk line = .error overrun) := by
  have start : [] ++ (pieces line).modifyHead ([] ++ ·) = pieces line := by
    obtain ⟨piece, more, split⟩ := exists_cons_of_ne_nil (splitOnP_ne_nil isSpace line)
    simp [pieces, split]
  obtain ⟨through, stops⟩ := loop_spec junk (.init (t := t)) line
  rw [start] at through stops
  rw [parse]
  cases run : line.foldlM (step t junk) ⟨[], malloc (junk 0) t.first, 0, 0⟩ with
  | error overrun => exact ⟨fun fits => absurd fits (stops overrun run), fun _ => ⟨overrun, rfl⟩⟩
  | ok s =>
    obtain ⟨front, last, split, reads⟩ := through s run
    rw [split]
    refine ⟨fun _ => ⟨s.words, ?_, reads.sizes, rfl⟩, fun wrong => absurd reads.fits_all wrong⟩
    rw [dropLast_concat]
    exact reads.words

/-- All stores of a parser are inside of the tables, and it returns a command with a name. -/
def Named (result : Except Overrun Command) : Prop :=
  ∃ command name, result = .ok command ∧ 1 ≤ command.argc ∧ command.argv[0]? = some (some name)

/-- The loop alone names a command where a piece ends in whitespace. -/
theorem parse_named (t : Tables) (junk : Nat → Nat → Char) (line : List Char) :
    Named (parse t junk line) ↔ 2 ≤ (pieces line).length ∧ t.Fits (pieces line) := by
  obtain ⟨done, failed⟩ := parse_spec t junk line
  by_cases fits : t.Fits (pieces line)
  · obtain ⟨words, held, -, parsed⟩ := done fits
    have count := held.length_eq
    rw [length_dropLast] at count
    rw [Named, parsed]
    constructor
    · rintro ⟨command, name, result, named, -⟩
      cases result
      dsimp only at named
      exact ⟨by omega, fits⟩
    · rintro ⟨some, -⟩
      obtain ⟨word, rest, rfl⟩ := exists_cons_of_length_pos (l := words) (by omega)
      exact ⟨_, word, rfl, by simp, rfl⟩
  · obtain ⟨overrun, parsed⟩ := failed fits
    rw [parsed]
    exact iff_of_false (by rintro ⟨command, name, result, -⟩; nomatch result)
      fun both => fits both.2

/-! ### The two parsers -/

/-- `malloc(ARG_LEN * sizeof *command->argv)` for the first word. -/
def Ezsh.tables : Tables := ⟨30 * 4, false⟩

/-- `parsecmd` of `ezsh`. -/
def Ezsh.parsecmd (junk : Nat → Nat → Char) (line : List Char) : Except Overrun Command :=
  parse Ezsh.tables junk line

namespace Xvedit

def tables : Tables := ⟨5, true⟩

/-- `commands_alone`. -/
def commandsAlone : List (List Char) :=
  ["@END", "ADD<", "DROP", "EDIT", "LIST", "QUIT", "COPY", "FIND", "FLIP", "HELP", "OPEN", "SAVE",
    "SORT"].map String.toList

/-- `char_to_upper`. -/
def charToUpper (c : Char) : Char := if 'a' ≤ c ∧ c ≤ 'z' then Char.ofNat (c.toNat - 32) else c

/-- `string_to_upper`. -/
def stringToUpper (word : List Char) : List Char :=
  (cstring word).map charToUpper ++ word.drop (cstring word).length

/-- `strcpy` to the first word. -/
def strcpy (word text : List Char) : Except Overrun (List Char) :=
  if text.length < word.length then .ok (text ++ '\x00' :: word.drop (text.length + 1))
  else .error (.byte 0 word.length)

/-- `command_converter`: the one command that begins with the name, if there is just one. -/
def commandConverter (word : List Char) : Except Overrun (List Char) :=
  match commandsAlone.filter (cstring word).isPrefixOf with
  | [desired] => strcpy word desired
  | _ => .ok word

/-- What `parsecmd` does to the name at its end. -/
def adjust (word : List Char) : Except Overrun (List Char) :=
  let word := stringToUpper word
  if (cstring word).length < 4 ∧ (cstring word).length > 0 then commandConverter word
  else .ok word

/-- `parsecmd` of `xvedit`. -/
def parsecmd (junk : Nat → Nat → Char) (line : List Char) : Except Overrun Command := do
  let command ← parse tables junk line
  match command.argv with
  | some word :: argv =>
    let word ← adjust word
    .ok { command with argv := some word :: argv }
  | _ => .error .null

theorem length_stringToUpper (word : List Char) : (stringToUpper word).length = word.length := by
  have length := congrArg List.length
    (takeWhile_append_dropWhile (p := (· ≠ '\x00')) (l := word))
  rw [length_append] at length
  simp only [stringToUpper, length_append, length_map, length_drop, cstring]
  omega

/-- A full name fits into the block of the first word. -/
theorem adjust_ok (size : 5 ≤ word.length) : ∃ name, adjust word = .ok name := by
  rw [← length_stringToUpper] at size
  rw [adjust]
  split
  · rw [commandConverter]
    split
    case h_1 desired found =>
      have member : desired ∈ commandsAlone.filter (cstring (stringToUpper word)).isPrefixOf := by
        rw [found]
        exact mem_singleton_self _
      have four : ∀ name ∈ commandsAlone, name.length = 4 := by decide
      rw [strcpy, if_pos (by rw [four desired (mem_filter.mp member).1]; exact size)]
      exact ⟨_, rfl⟩
    · exact ⟨_, rfl⟩
  · exact ⟨_, rfl⟩

theorem parsecmd_eq {line name : List Char} {argc : Nat} {argv : List (Option (List Char))}
    (parsed : parse tables junk line = .ok ⟨argc, some word :: argv⟩)
    (adjusted : adjust word = .ok name) : parsecmd junk line = .ok ⟨argc, some name :: argv⟩ := by
  rw [parsecmd, parsed]
  change (adjust word >>= fun word => Except.ok (Command.mk argc (some word :: argv))) = _
  rw [adjusted]
  rfl

/-- Changing the name keeps what the loop found. -/
theorem parsecmd_named (junk : Nat → Nat → Char) (line : List Char) :
    Named (parsecmd junk line) ↔ Named (parse tables junk line) := by
  obtain ⟨done, failed⟩ := parse_spec tables junk line
  by_cases fits : tables.Fits (pieces line)
  · obtain ⟨words, -, sizes, parsed⟩ := done fits
    cases words with
    | nil =>
      rw [parsecmd, parsed]
      refine iff_of_false ?_ ?_
      · rintro ⟨command, name, result, -⟩
        nomatch result
      · rintro ⟨command, name, result, named, -⟩
        cases result
        exact absurd named (by decide)
    | cons word words =>
      obtain ⟨name, adjusted⟩ := adjust_ok (Nat.le_of_eq (sizes 0 word rfl).symm)
      have named : 1 ≤ (word :: words).length := by simp
      rw [parsecmd_eq parsed adjusted, parsed]
      exact iff_of_true ⟨_, name, rfl, named, rfl⟩ ⟨_, word, rfl, named, rfl⟩
  · obtain ⟨overrun, parsed⟩ := failed fits
    rw [parsecmd, parsed]
    refine iff_of_false ?_ ?_ <;> rintro ⟨command, name, result, -⟩ <;> nomatch result

end Xvedit

/-- For every line, `parsecmd` of the shell and of the editor store only inside of their tables and
return a command with a name, exactly if the line has at least one whitespace character and at most
nine, and each piece, with a terminator where the parser writes one, fits into the block for its
word. -/
theorem parsecmd_in_bounds_iff (junk : Nat → Nat → Char) (line : List Char) :
    (Named (Ezsh.parsecmd junk line) ↔
      2 ≤ (pieces line).length ∧ Ezsh.tables.Fits (pieces line)) ∧
    (Named (Xvedit.parsecmd junk line) ↔
      2 ≤ (pieces line).length ∧ Xvedit.tables.Fits (pieces line)) :=
  ⟨parse_named _ junk line, (Xvedit.parsecmd_named junk line).trans (parse_named _ junk line)⟩

/-- Three lines that `getcmd` returns: eleven words, a name of five letters, and a name at the end
of the input. -/
theorem parsecmd_overruns :
    getcmd "a a a a a a a a a a a\n".toList = some "a a a a a a a a a a a\n".toList ∧
    getcmd "HELLO\n".toList = some "HELLO\n".toList ∧
    getcmd "ls".toList = some "ls".toList ∧ ∀ junk,
      Ezsh.parsecmd junk "a a a a a a a a a a a\n".toList = .error (.slot 10) ∧
      Xvedit.parsecmd junk "HELLO\n".toList = .error (.byte 0 5) ∧
      (Ezsh.parsecmd junk "ls".toList).toOption.map Command.argv =
        some (replicate 10 none) := by
  refine ⟨by decide +kernel, by decide +kernel, by decide +kernel, fun junk => ?_⟩
  refine ⟨?_, ?_, ?_⟩ <;> rfl

end Xv6.User.Parsecmd
