import Mathlib.Data.List.Perm.Basic
import Xv6.Sh.Correct

/-!
# The words of a command line

All words of a tree lie in one buffer, and `nulterminate` overwrites the character behind each of
them. What is read from the buffer afterwards are the words of the input.
-/

namespace Xv6.Sh

open List

/-- The words of a tree: arguments and names of files. -/
def Cmd.words {α : Type} : Cmd α → List α
  | .exec argv => argv
  | .redir cmd file _ _ => file :: cmd.words
  | .pipe left right => left.words ++ right.words
  | .list left right => left.words ++ right.words
  | .back cmd => cmd.words

variable {α : Type} {ts : List Token} {rs : List (Redir (List UInt8))}

theorem Cmd.all_iff {P : α → Prop} (cmd : Cmd α) : cmd.All P ↔ ∀ w ∈ cmd.words, P w := by
  induction cmd with
  | exec argv => exact Iff.rfl
  | redir cmd file mode fd ih =>
    rw [Cmd.All, ih, Cmd.words, forall_mem_cons, and_comm]
  | pipe left right ihl ihr | list left right ihl ihr =>
    rw [Cmd.All, ihl, ihr, Cmd.words, forall_mem_append]
  | back cmd ih => exact ih

theorem Cmd.words_map {β : Type} (f : α → β) (cmd : Cmd α) :
    (cmd.map f).words = cmd.words.map f := by
  induction cmd with
  | exec argv => rfl
  | redir cmd file mode fd ih => rw [Cmd.map, Cmd.words, ih, Cmd.words, map_cons]
  | pipe left right ihl ihr | list left right ihl ihr =>
    rw [Cmd.map, Cmd.words, ihl, ihr, Cmd.words, map_append]
  | back cmd ih => exact ih

theorem words_wrap (cmd : Cmd α) (redirs : List (Redir α)) :
    (wrap cmd redirs).words.Perm (cmd.words ++ redirs.map Redir.file) := by
  induction redirs generalizing cmd with
  | nil =>
    rw [map_nil, append_nil]
    exact List.Perm.refl _
  | cons r redirs ih =>
    refine (ih _).trans ?_
    exact List.perm_middle.symm

theorem words_backs (n : Nat) (cmd : Cmd α) : (backs n cmd).words = cmd.words := by
  induction n generalizing cmd with
  | zero => rfl
  | succ n ih => exact ih _

/-- The characters of a token that is a word. -/
def Token.text? : Token → Option (List UInt8)
  | .op _ => none
  | .word w => some w

/-- The words among tokens. -/
def texts (ts : List Token) : List (List UInt8) := ts.filterMap Token.text?

theorem texts_append (ts us : List Token) : texts (ts ++ us) = texts ts ++ texts us :=
  filterMap_append

@[simp] theorem texts_op (o : Op) (ts : List Token) : texts (.op o :: ts) = texts ts := rfl

@[simp] theorem texts_word (w : List UInt8) (ts : List Token) :
    texts (.word w :: ts) = w :: texts ts := rfl

@[simp] theorem texts_amps (n : Nat) : texts (replicate n (.op .amp)) = [] := by
  induction n with
  | zero => rfl
  | succ n ih => exact ih

theorem Redirs.texts (derived : Redirs ts rs) : texts ts = rs.map Redir.file := by
  induction derived with
  | nil => rfl
  | input _ ih | output _ ih | append _ ih => rw [texts_op, texts_word, ih, map_cons]

theorem Args.texts {ws : List (List UInt8)} (derived : Args ts ws rs) :
    (texts ts).Perm (ws ++ rs.map Redir.file) := by
  induction derived with
  | nil => exact List.Perm.refl _
  | cons redirs _ ih =>
    rw [texts_word, texts_append, redirs.texts, cons_append, map_append]
    grind

/-- The words of a command are those of the tokens it is derived from. -/
theorem Derives.texts {x : Symbol} {c : Cmd (List UInt8)} (derived : Derives x ts c) :
    (texts ts).Perm c.words := by
  induction derived with
  | line first n ih =>
    rw [texts_append, texts_amps, append_nil, words_backs]
    exact ih
  | lines first n rest ihf ihr =>
    rw [texts_append, texts_append, texts_amps, nil_append, texts_op, Cmd.words, words_backs]
    exact ihf.append ihr
  | pipe first ih => exact ih
  | pipes first rest ihf ihr =>
    rw [texts_append, texts_op]
    exact ihf.append ihr
  | exec redirs args few =>
    grind [texts_append, redirs.texts, args.texts, words_wrap, Cmd.words]
  | nested block ih => exact ih
  | block inner redirs ih =>
    rw [texts_op, texts_append, texts_op, redirs.texts]
    exact (List.Perm.append_right _ ih).trans (words_wrap _ _).symm

/-- The characters of the input between the pointers of a word. -/
def Word.chars (s : List UInt8) (w : Word) : List UInt8 :=
  (s.drop (s.length - w.q.length)).take (w.q.length - w.eq.length)

theorem Run.chars_eq {s : List UInt8} {w : Word} (run : Run s w) : w.chars s = w.text := by
  obtain ⟨before, rfl⟩ := run.suffix
  have length : w.text.length + w.eq.length = w.q.length := by
    rw [run.ends, Word.text, ← length_append, takeWhile_append_dropWhile]
  have start : (before ++ w.q).length - w.q.length = before.length := by
    rw [length_append, Nat.add_sub_cancel]
  have split : w.q = w.text ++ w.eq := by
    rw [run.ends, Word.text, takeWhile_append_dropWhile]
  rw [Word.chars, start, drop_left, ← length, Nat.add_sub_cancel]
  conv_lhs => rw [split]
  rw [take_left]

/-- What is read at the words of the tree after `nulterminate` are the words of the input: each the
characters between its two pointers, and together just the tokens that are words. -/
theorem nulterminate_cuts (s : List UInt8) (noNul : 0 ∉ s) (c : Cmd (List UInt8))
    (accepted : parsecmd s = .ok c) :
    ∃ cmd ps, parseline (4 * s.length + 4) s = .ok (cmd, ps) ∧ c = cmd.map (Word.chars s) ∧
      (∀ w ∈ cmd.words,
        string (nulterminate s.length cmd (s ++ [0])) (s.length - w.q.length) = w.chars s) ∧
      (texts (tokens s)).Perm (cmd.words.map (Word.chars s)) := by
  obtain ⟨cmd, ps, parses, none, rfl⟩ := (parsecmd_ok noNul).mp accepted
  have sound := parse_sound .line _ parses
  have ends := @nulterminate_ends s.length cmd (s ++ [0]) (by simp)
  have chars : cmd.map (Word.chars s) = cmd.map Word.text :=
    map_congr (sound.runs.mono fun w run => run.chars_eq)
  refine ⟨cmd, ps, parses, chars.symm, ?_, ?_⟩
  · rw [← Cmd.all_iff]
    refine (sound.runs.and ends).mono fun w both => ?_
    rw [both.1.string_eq noNul sound.runs both.2, both.1.chars_eq]
  · obtain ⟨ts, derived, consumed⟩ := sound.derived
    rw [none, append_nil] at consumed
    rw [consumed, ← Cmd.words_map, chars]
    exact derived.texts

/-- `a>b;c`: the terminator of `a` overwrites the `>`, that of `b` the `;`. -/
theorem nulterminate_cuts_adjacent :
    ∃ cmd ps, parseline (4 * 5 + 4) [97, 62, 98, 59, 99] = .ok (cmd, ps) ∧
      cmd.words.map (fun w => string (nulterminate 5 cmd [97, 62, 98, 59, 99, 0])
        (5 - w.q.length)) = [[98], [97], [99]] := by
  have parses : parsecmd [97, 62, 98, 59, 99] =
      .ok (.list (.redir (.exec [[97]]) [98] 513 1) (.exec [[99]])) := by
    decide +kernel
  obtain ⟨cmd, ps, runs, tree, read, -⟩ := nulterminate_cuts _ (by decide) _ parses
  refine ⟨cmd, ps, runs, ?_⟩
  have words := congrArg Cmd.words tree
  rw [Cmd.words_map] at words
  exact (map_congr_left read).trans words.symm

end Xv6.Sh
