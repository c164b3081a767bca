import Xv6.Umalloc.Malloc
import Xv6.User.Parsecmd

/-!
# `commands_to_text`

`run_command` of `xvedit` puts the words behind the name, or behind the line number, together again
with single spaces. As `parsecmd` begins a word behind every space, empty words stand for repeated
spaces and the text comes back as it was typed, if it fits: its block has ten bytes for each of the
`argc` words, rounded up as `umalloc.c` does. A store outside of the block ends a run of the model.
-/

namespace Xv6.User.Parsecmd.Xvedit

open Option List

/-- `text[j] = c`. -/
def put (text : List Char) (j : Nat) (c : Char) : Option (List Char) :=
  if j < text.length then some (text.set j c) else none

/-- The inner loop: the characters of a word are stored from an offset on. -/
def copyWord : List Char → Nat → List Char → Option (List Char)
  | [], _, text => some text
  | c :: word, offset, text => (put text offset c).bind (copyWord word (offset + 1))

/-- The loop over the words left. -/
def joinWords : List (List Char) → Nat → List Char → Option (List Char)
  | [], _, text => some text
  | [word], offset, text => (copyWord word offset text).bind (put · (offset + word.length) '\x00')
  | word :: next :: words, offset, text => do
    let text ← copyWord word offset text
    let text ← put text (offset + word.length) ' '
    joinWords (next :: words) (offset + word.length + 1) text

/-- `commands_to_text`; `junk` is what the block for the text holds. -/
def commandsToText (junk : Nat → Char) (command : Command) (start : Nat) : Option (List Char) :=
  joinWords (((command.argv.take command.argc).drop start).map fun word => cstring (word.getD []))
    0 (malloc junk (Umalloc.room (command.argc * 10)))

/-- The first word of the text, by the name of the command, as `run_command` has it. -/
def textStart (name : List Char) : Option Nat :=
  if name = "@END".toList ∨ name = "FIND".toList then some 1
  else if name = "ADD<".toList ∨ name = "EDIT".toList then some 2
  else none

/-- What `run_command` passes on as text. -/
def textOf (junk : Nat → Char) (command : Command) : Option (List Char) :=
  (textStart (cstring ((command.argv.head?.getD none).getD []))).bind (commandsToText junk command)

variable {head words : List (List Char)} {word name : List Char} {start : Nat}

/-- Characters are stored one behind the other, up to the end of the block. -/
theorem copyWord_eq (word front rest : List Char) :
    copyWord word front.length (front ++ rest) =
      if word.length ≤ rest.length then some (front ++ word ++ rest.drop word.length)
      else none := by
  induction word generalizing front rest with
  | nil => simp [copyWord]
  | cons c word ih =>
    cases rest with
    | nil => simp [copyWord, put]
    | cons r rest =>
      have here : put (front ++ r :: rest) front.length c = some (front ++ [c] ++ rest) := by
        simp [put]
      have later := ih (front ++ [c]) rest
      rw [length_append, length_singleton] at later
      rw [copyWord, here, bind_some, later]
      simp

theorem copyWord_append (word more : List Char) (offset : Nat) (text : List Char) :
    copyWord (word ++ more) offset text =
      (copyWord word offset text).bind (copyWord more (offset + word.length)) := by
  induction word generalizing offset text with
  | nil => rfl
  | cons c word ih =>
    rw [cons_append, copyWord, copyWord, Option.bind_assoc, length_cons,
      add_comm word.length, ← add_assoc]
    exact congrArg _ (funext (ih (offset + 1)))

/-- Words are stored with a space between each two and a terminator behind the last one. -/
theorem joinWords_eq (some : words ≠ []) (offset : Nat) (text : List Char) :
    joinWords words offset text = copyWord ([' '].intercalate words ++ ['\x00']) offset text := by
  have one : ∀ text j c, put text j c = copyWord [c] j text := fun text j c => by
    rw [copyWord]
    exact (bind_fun_some _).symm
  induction words generalizing offset text with
  | nil => exact absurd rfl some
  | cons word words ih =>
    cases words with
    | nil =>
      rw [intercalate_singleton, copyWord_append, joinWords]
      exact congrArg _ (funext fun text => one text _ _)
    | cons next words =>
      rw [intercalate_cons_cons, append_assoc, copyWord_append, copyWord_append,
        Option.bind_assoc, joinWords]
      refine congrArg _ (funext fun text => ?_)
      rw [← one, length_append, length_singleton, ← add_assoc]
      exact congrArg _ (funext fun text => ih (by simp) _ text)

/-- A finished word is read back as its piece of the line. -/
theorem cstring_of_holds {piece : List Char} (held : tables.Holds word piece)
    (plain : '\x00' ∉ piece) : cstring word = piece := by
  obtain ⟨rest, rfl⟩ := held
  have stops : ∀ c ∈ piece, decide (c ≠ '\x00') = true := fun c member =>
    decide_eq_true fun zero => plain (zero ▸ member)
  rw [cstring, tables, if_pos rfl, append_assoc, takeWhile_append_of_pos stops]
  simp

/-- The pieces of a text whose only whitespace is the space. -/
theorem pieces_text {chars : List Char} (spaces : ∀ c ∈ chars, isSpace c → c = ' ') :
    pieces chars = chars.splitOn ' ' := by
  induction chars with
  | nil => rfl
  | cons c chars ih =>
    have rest := ih fun d member => spaces d (mem_cons_of_mem _ member)
    have same : isSpace c = (c == ' ') := by
      by_cases blank : c = ' '
      · subst blank
        rfl
      · rw [beq_false_of_ne blank]
        exact Bool.eq_false_iff.mpr fun space => blank (spaces c (mem_cons_self ..) space)
    rw [pieces, splitOn_eq_splitOnP] at rest ⊢
    rw [splitOnP_cons_eq_if_modifyHead, splitOnP_cons_eq_if_modifyHead, rest, same]

/-- Finished words are read back as their pieces. -/
theorem map_cstring {parts : List (List Char)} (held : Forall₂ tables.Holds words parts)
    (plain : ∀ piece ∈ parts, '\x00' ∉ piece) : words.map cstring = parts := by
  induction held with
  | nil => rfl
  | cons first rest ih =>
    obtain ⟨here, others⟩ := List.forall_mem_cons.mp plain
    rw [map_cons, cstring_of_holds first here, ih others]

/-- A character of a word is one of the joined words. -/
theorem mem_intercalate {c : Char} (listed : word ∈ words) (member : c ∈ word) :
    c ∈ [' '].intercalate words := by
  induction words with
  | nil => nomatch listed
  | cons first words ih =>
    cases words with
    | nil =>
      rw [intercalate_singleton]
      rwa [List.mem_singleton.mp listed] at member
    | cons next words =>
      rw [intercalate_cons_cons, mem_append, mem_append]
      obtain rfl | later := List.mem_cons.mp listed
      · exact .inl (.inl member)
      · exact .inr (ih later)

/-- What stands in front of a text: `@END`, or `ADD<` or `EDIT` with a number. -/
inductive Head : List (List Char) → Prop where
  | append : Head ["@END".toList]
  | insert {n : List Char} : (∀ c ∈ n, isSpace c = false) → Head ["ADD<".toList, n]
  | replace {n : List Char} : (∀ c ∈ n, isSpace c = false) → Head ["EDIT".toList, n]

/-- The line that is typed. -/
def line : List (List Char) → List Char → List Char
  | [], chars => chars ++ ['\n']
  | word :: head, chars => word ++ ' ' :: line head chars

/-- A name that `parsecmd` leaves alone. -/
structure IsName (name : List Char) (start : Nat) : Prop where
  length : name.length = 4
  upper : name.map charToUpper = name
  plain : '\x00' ∉ name
  starts : textStart name = some start

theorem Head.cases (typed : Head head) :
    (∃ name rest, head = name :: rest ∧ IsName name head.length) ∧
      ∀ word ∈ head, ∀ c ∈ word, isSpace c = false := by
  have names : ∀ name ∈ ["@END".toList, "ADD<".toList, "EDIT".toList],
      ∀ c ∈ name, isSpace c = false := by simp [isSpace, whitespace]
  cases typed with
  | append =>
    refine ⟨⟨_, [], rfl, by decide, by decide +kernel, by decide, rfl⟩, ?_⟩
    exact forall_mem_singleton.mpr (names _ (by simp))
  | insert digits =>
    refine ⟨⟨_, [_], rfl, by decide, by decide +kernel, by decide, rfl⟩, ?_⟩
    exact List.forall_mem_cons.mpr ⟨names _ (by simp), forall_mem_singleton.mpr digits⟩
  | replace digits =>
    refine ⟨⟨_, [_], rfl, by decide, by decide +kernel, by decide, rfl⟩, ?_⟩
    exact List.forall_mem_cons.mpr ⟨names _ (by simp), forall_mem_singleton.mpr digits⟩

theorem pieces_line (chars : List Char) (words : ∀ word ∈ head, ∀ c ∈ word, isSpace c = false) :
    pieces (line head chars) = head ++ pieces chars ++ [[]] := by
  induction head with
  | nil => exact splitOnP_append_cons chars [] rfl
  | cons word head ih =>
    have rest := ih fun other member => words other (mem_cons_of_mem _ member)
    rw [pieces] at rest
    rw [pieces, line,
      splitOnP_append_cons_of_forall_mem (words word (mem_cons_self ..)) ' ' rfl, rest]
    rfl

/-- A name of four capitals stays as it is. -/
theorem adjust_name (isName : IsName name start) (held : tables.Holds word name) :
    adjust word = .ok word := by
  have read := cstring_of_holds held isName.plain
  have same : stringToUpper word = word := by
    obtain ⟨rest, whole⟩ := held
    rw [stringToUpper, read, isName.upper, ← whole, append_assoc, drop_left]
  have four : ¬ ((cstring word).length < 4 ∧ (cstring word).length > 0) := by
    rw [read, isName.length]
    decide
  rw [adjust, same, if_neg four]

/-- The words of a command behind its name, or behind the number, are joined. -/
theorem textOf_eq (isName : IsName name start) (held : tables.Holds word name)
    (words : List (List Char)) (null : List (Option (List Char))) (junk : Nat → Char) :
    textOf junk ⟨(word :: words).length, (word :: words).map some ++ null⟩ =
      joinWords (((word :: words).drop start).map cstring) 0
        (malloc junk (Umalloc.room ((word :: words).length * 10))) := by
  have read : cstring ((some word).getD []) = name := cstring_of_holds held isName.plain
  rw [textOf, map_cons, cons_append, head?_cons, getD_some, read,
    isName.starts, bind_some, commandsToText, ← cons_append, ← map_cons]
  dsimp only
  rw [List.take_left' (length_map ..), ← map_drop, List.map_map]
  rfl

/-- For every line `@END text`, `ADD< n text` or `EDIT n text`, with a newline at its end, at most
nine pieces of fewer than 30 bytes between spaces and no other whitespace in the text, what
`run_command` takes from the words that `parsecmd` returns is exactly the text, with its terminator,
if there is room for both in the block of ten bytes for each word; otherwise a store goes past the
end of the block. -/
theorem commands_to_text_exact_iff {head : List (List Char)} {chars : List Char} (typed : Head head)
    (spaces : ∀ c ∈ chars, isSpace c → c = ' ') (plain : '\x00' ∉ chars)
    (few : (head ++ chars.splitOn ' ').length ≤ 9)
    (short : ∀ piece ∈ head ++ chars.splitOn ' ', piece.length < 30)
    (junk : Nat → Nat → Char) (memory : Nat → Char) :
    ∃ command, parsecmd junk (line head chars) = .ok command ∧
      command.argc = (head ++ chars.splitOn ' ').length ∧
      ((∃ text, textOf memory command = some text ∧ chars ++ ['\x00'] <+: text) ↔
        chars.length + 1 ≤ Umalloc.room (command.argc * 10)) := by
  obtain ⟨⟨name, rest, rfl, isName⟩, blank⟩ := typed.cases
  have split := pieces_line chars blank
  rw [pieces_text spaces] at split
  have fits : tables.Fits (pieces (line (name :: rest) chars)) := by
    rw [split]
    refine ⟨by simp at few ⊢; unfold maxArgs; omega, fun k piece found => ?_⟩
    have terminator : ∀ more, tables.extra more ≤ 1 := fun more => by cases more <;> decide
    cases k with
    | zero =>
      obtain rfl : name = piece := Option.some.inj found
      exact Nat.add_le_add (Nat.le_of_eq isName.length) (terminator _)
    | succ k =>
      have bytes : piece.length < 30 := by
        obtain member | member := mem_append.mp (mem_of_getElem? found)
        · exact short piece member
        · rw [List.mem_singleton.mp member]
          decide
      exact Nat.le_trans (Nat.add_le_add_left (terminator _) _) bytes
  obtain ⟨words, held, -, parsed⟩ := (parse_spec tables junk _).1 fits
  rw [split, dropLast_concat] at held
  have count := held.length_eq
  cases words with
  | nil => exact absurd count (by simp)
  | cons word words =>
    have first := (forall₂_cons.mp held).1
    have behind := forall₂_drop (name :: rest).length held
    rw [drop_left] at behind
    have joined : [' '].intercalate (chars.splitOn ' ') = chars := intercalate_splitOn ' '
    have texts := map_cstring behind fun piece listed zero => plain <| by
      rw [← joined]
      exact mem_intercalate listed zero
    refine ⟨⟨(word :: words).length, (word :: words).map some ++
      replicate (maxArgs - (word :: words).length) none⟩,
      parsecmd_eq parsed (adjust_name isName first), count, ?_⟩
    have stored := copyWord_eq (chars ++ ['\x00']) []
      (malloc memory (Umalloc.room ((word :: words).length * 10)))
    rw [length_nil, nil_append] at stored
    rw [textOf_eq isName first, texts, joinWords_eq (splitOn_ne_nil ' ' chars), joined, stored]
    simp only [malloc, length_append, length_singleton, length_map,
      length_range, nil_append]
    split
    · rename_i fits
      exact iff_of_true ⟨_, rfl, prefix_append ..⟩ fits
    · rename_i past
      exact iff_of_false (by simp) past

/-- Spaces at both ends and two between the words. -/
theorem commands_to_text_exact_iff_spaces : ∃ command text,
    parsecmd (fun _ _ => 'x') "ADD< 12  to  do \n".toList = .ok command ∧
    textOf (fun _ => 'x') command = some text ∧ cstring text = " to  do ".toList := by
  have digits : ∀ c ∈ "12".toList, isSpace c = false := by simp [isSpace, whitespace]
  have typed : line ["ADD<".toList, "12".toList] " to  do ".toList =
      "ADD< 12  to  do \n".toList := by decide +kernel
  obtain ⟨command, parsed, count, fits⟩ := commands_to_text_exact_iff (.insert digits)
    (by simp [isSpace, whitespace] : ∀ c ∈ " to  do ".toList, isSpace c → c = ' ')
    (by decide +kernel) (by decide +kernel) (by decide +kernel) (fun _ _ => 'x') fun _ => 'x'
  rw [typed] at parsed
  obtain ⟨text, returned, held⟩ := fits.mpr (by rw [count]; decide +kernel)
  exact ⟨command, text, parsed, returned, cstring_of_holds held (by decide +kernel)⟩

/-- Three words of 29 letters and their terminator are 90 bytes, for which there are 40. -/
theorem commands_to_text_overruns : ∃ command,
    parsecmd (fun _ _ => 'x') ("@END ".toList ++ replicate 29 'a' ++ ' ' ::
      replicate 29 'b' ++ ' ' :: replicate 29 'c' ++ ['\n']) = .ok command ∧
    command.argc = 4 ∧ Umalloc.room (4 * 10) = 40 ∧ textOf (fun _ => 'x') command = none := by
  have executed : (parsecmd (fun _ _ => 'x') ("@END ".toList ++ replicate 29 'a' ++ ' ' ::
      replicate 29 'b' ++ ' ' :: replicate 29 'c' ++ ['\n'])).toOption.map
      (fun command => (command.argc, textOf (fun _ => 'x') command)) = some (4, none) := by
    decide +kernel
  cases parsed : parsecmd _ _ with
  | error =>
    rw [parsed] at executed
    nomatch executed
  | ok command =>
    rw [parsed] at executed
    obtain ⟨count, none⟩ := Prod.mk.inj (Option.some.inj executed)
    exact ⟨command, rfl, count, by decide, none⟩

end Xv6.User.Parsecmd.Xvedit
