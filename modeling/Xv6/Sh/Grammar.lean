import Mathlib.Data.List.Basic
import Xv6.Sh.Parse

/-!
# The grammar of the shell

The tokens of a string, and the commands that sequences of tokens stand for. `gettoken` takes the
first token and `peek` looks at it, so that the parser can be followed on tokens alone.
-/

namespace Xv6.Sh

open List

/-- A symbol or a word. -/
inductive Token where
  | op (o : Op)
  | word (w : List UInt8)
  deriving DecidableEq

/-- The tokens of a string: words are as long as possible. -/
def tokens : List UInt8 → List Token
  | [] => []
  | c :: t =>
    if isSpace c then tokens t
    else
      match single c with
      | some o => .op o :: tokens t
      | none =>
        if c = 62 then
          if t.head? = some 62 then .op .append :: tokens t.tail else .op .gt :: tokens t
        else .word (c :: t.takeWhile isWord) :: tokens (t.dropWhile isWord)
termination_by s => s.length
decreasing_by
  all_goals grind [dropWhile_sublist]

/-- `redir*`: the redirections of a sequence of tokens. -/
inductive Redirs : List Token → List (Redir (List UInt8)) → Prop where
  | nil : Redirs [] []
  | input {w : List UInt8} {ts : List Token} {rs : List (Redir (List UInt8))}
      (rest : Redirs ts rs) : Redirs (.op .lt :: .word w :: ts) (⟨w, oRdonly, 0⟩ :: rs)
  | output {w : List UInt8} {ts : List Token} {rs : List (Redir (List UInt8))}
      (rest : Redirs ts rs) : Redirs (.op .gt :: .word w :: ts) (⟨w, oWronlyCreate, 1⟩ :: rs)
  | append {w : List UInt8} {ts : List Token} {rs : List (Redir (List UInt8))}
      (rest : Redirs ts rs) : Redirs (.op .append :: .word w :: ts) (⟨w, oWronlyCreate, 1⟩ :: rs)

/-- `(word redir*)*`: words, and the redirections among them. -/
inductive Args : List Token → List (List UInt8) → List (Redir (List UInt8)) → Prop where
  | nil : Args [] [] []
  | cons {w : List UInt8} {ts us : List Token} {ws : List (List UInt8)}
      {rs ss : List (Redir (List UInt8))} (redirs : Redirs ts rs) (rest : Args us ws ss) :
      Args (.word w :: (ts ++ us)) (w :: ws) (rs ++ ss)

/-- A command with so many `&` behind it. -/
def backs {α : Type} : Nat → Cmd α → Cmd α
  | 0, cmd => cmd
  | n + 1, cmd => backs n (.back cmd)

/-- The nonterminals. -/
inductive Symbol where
  | line
  | pipe
  | exec
  | block
  deriving DecidableEq

/-- The grammar, with the command of each derivation:
`line = pipe '&'* [';' line]`, `pipe = exec ['|' pipe]`, `exec = block | redir* (word redir*)*` with
at most 9 words, `block = '(' line ')' redir*`. -/
inductive Derives : Symbol → List Token → Cmd (List UInt8) → Prop where
  | line {ts : List Token} {c : Cmd (List UInt8)} (first : Derives .pipe ts c) (n : Nat) :
      Derives .line (ts ++ replicate n (.op .amp)) (backs n c)
  | lines {ts us : List Token} {c d : Cmd (List UInt8)} (first : Derives .pipe ts c) (n : Nat)
      (rest : Derives .line us d) :
      Derives .line (ts ++ (replicate n (.op .amp) ++ .op .semi :: us)) (.list (backs n c) d)
  | pipe {ts : List Token} {c : Cmd (List UInt8)} (first : Derives .exec ts c) : Derives .pipe ts c
  | pipes {ts us : List Token} {c d : Cmd (List UInt8)} (first : Derives .exec ts c)
      (rest : Derives .pipe us d) : Derives .pipe (ts ++ .op .bar :: us) (.pipe c d)
  | exec {ts us : List Token} {ws : List (List UInt8)} {rs ss : List (Redir (List UInt8))}
      (redirs : Redirs ts rs) (args : Args us ws ss) (few : ws.length ≤ 9) :
      Derives .exec (ts ++ us) (wrap (.exec ws) (rs ++ ss))
  | nested {ts : List Token} {c : Cmd (List UInt8)} (block : Derives .block ts c) :
      Derives .exec ts c
  | block {ts us : List Token} {c : Cmd (List UInt8)} {rs : List (Redir (List UInt8))}
      (inner : Derives .line ts c) (redirs : Redirs us rs) :
      Derives .block (.op .lparen :: (ts ++ .op .rparen :: us)) (wrap c rs)

/-! ## `gettoken` and `peek` on tokens -/

theorem tokens_skip (ps : Ptr) : tokens (skip ps) = tokens ps := by
  induction ps with
  | nil => rfl
  | cons c t ih =>
    by_cases space : isSpace c = true
    · rw [skip, dropWhile_cons_of_pos space, ← skip, ih, tokens, if_pos space]
    · rw [skip, dropWhile_cons_of_neg space]

theorem skip_suffix (ps : Ptr) : skip ps <:+ ps := dropWhile_suffix _

variable {ps : Ptr} {c : UInt8} {o : Op} {rest : List Token}

/-- A pointer behind whitespace does not point to whitespace. -/
theorem skip_head {t : Ptr} (skipped : skip ps = c :: t) : isSpace c = false := by
  have nonempty : ps.dropWhile isSpace ≠ [] := by
    rw [← skip, skipped]
    simp
  have first := head_dropWhile_not isSpace nonempty
  simpa only [← skip.eq_1, skipped, head_cons] using first

/-- The word that a word's pointers enclose. -/
def Word.text (w : Word) : List UInt8 := w.q.takeWhile isWord

/-- The pointers of a word of the input. -/
structure Run (s : List UInt8) (w : Word) : Prop where
  suffix : w.q <:+ s
  ends : w.eq = w.q.dropWhile isWord

theorem Run.mono {s : Ptr} {w : Word} (run : Run ps w) (suffix : ps <:+ s) : Run s w :=
  ⟨run.suffix.trans suffix, run.ends⟩

/-- The character of an operator that is a case of its own. -/
theorem single_char (found : single c = some o) : c = o.char := by
  unfold single at found
  split_ifs at found <;> cases found <;> assumption

/-- Other characters than whitespace and symbols are those of words. -/
theorem isWord_of_not (space : isSpace c = false) (none : single c = none) (other : c ≠ 62) :
    isWord c = true := by
  have plain : symbols.contains c = false := by
    unfold single at none
    split_ifs at none
    simp only [symbols, contains_cons, contains_nil, Bool.or_false, beq_eq_false_iff_ne,
      Bool.or_eq_false_iff]
    exact ⟨‹_›, ‹_›, other, ‹_›, ‹_›, ‹_›, ‹_›⟩
  rw [isWord, plain, show whitespace.contains c = false from space]
  rfl

theorem isWord_not_symbol (word : isWord c = true) : c ∉ symbols := by
  rw [isWord, Bool.and_eq_true, Bool.not_eq_true'] at word
  simpa using word.2

/-- The tokens where there is no whitespace. -/
theorem tokens_cons (t : Ptr) (space : isSpace c = false) :
    tokens (c :: t) = match single c with
      | some o => .op o :: tokens t
      | none =>
        if c = 62 then
          if t.head? = some 62 then .op .append :: tokens t.tail else .op .gt :: tokens t
        else .word (c :: t.takeWhile isWord) :: tokens (t.dropWhile isWord) := by
  rw [tokens, if_neg (by rw [space]; exact Bool.false_ne_true)]

/-- Nothing but whitespace is left where no token is. -/
theorem skip_of_tokens (none : tokens ps = []) : skip ps = [] := by
  cases skipped : skip ps with
  | nil => rfl
  | cons c t =>
    rw [← tokens_skip, skipped, tokens_cons t (skip_head skipped)] at none
    split at none
    · cases none
    · split_ifs at none

/-- What `gettoken` does: there is no token, or it is taken off the front. -/
theorem gettoken_cases (ps : Ptr) :
    (gettoken ps).ps <:+ ps ∧
    (tokens ps = [] ∧ (gettoken ps).ret = .eof ∧ tokens (gettoken ps).ps = [] ∨
      (∃ o, tokens ps = .op o :: tokens (gettoken ps).ps ∧ (gettoken ps).ret = .op o) ∨
      tokens ps = .word (gettoken ps).word.text :: tokens (gettoken ps).ps ∧
        (gettoken ps).ret = .word ∧ Run ps (gettoken ps).word) := by
  have whole := skip_suffix ps
  rw [gettoken, ← tokens_skip ps]
  cases skipped : skip ps with
  | nil => exact ⟨nil_suffix, .inl ⟨by rw [tokens], rfl, by rw [tokens]⟩⟩
  | cons c t =>
    rw [skipped] at whole
    have space := skip_head skipped
    have rest : t <:+ ps := (suffix_cons c t).trans whole
    dsimp only
    rw [tokens_cons t space]
    cases found : single c with
    | some o => exact ⟨(skip_suffix t).trans rest, .inr (.inl ⟨o, by rw [tokens_skip], rfl⟩)⟩
    | none =>
      dsimp only
      split
      · grind [skip_suffix, tail_suffix, tokens_skip]
      · rename_i other
        have word := isWord_of_not space found other
        refine ⟨(skip_suffix _).trans ((dropWhile_suffix _).trans whole),
          .inr (.inr ⟨?_, rfl, whole, rfl⟩)⟩
        rw [Word.text, Got.word, tokens_skip, takeWhile_cons_of_pos word,
          dropWhile_cons_of_pos word]

/-- `gettoken` of a symbol. -/
theorem gettoken_op (first : tokens ps = .op o :: rest) :
    (gettoken ps).ret = .op o ∧ tokens (gettoken ps).ps = rest := by
  grind [gettoken_cases]

/-- `gettoken` of a word. -/
theorem gettoken_word {w : List UInt8} (first : tokens ps = .word w :: rest) :
    (gettoken ps).ret = .word ∧
      tokens (gettoken ps).ps = rest ∧ (gettoken ps).word.text = w := by
  grind [gettoken_cases]

/-- `gettoken` at the end. -/
theorem gettoken_nil (none : tokens ps = []) :
    (gettoken ps).ret = .eof ∧ tokens (gettoken ps).ps = [] := by
  grind [gettoken_cases]

/-- Every token takes a character. -/
theorem tokens_length (ps : Ptr) : (tokens ps).length ≤ ps.length := by
  fun_induction tokens ps with
  | case1 => exact Nat.le_refl _
  | case2 c t space ih => exact Nat.le_succ_of_le ih
  | case3 c t space o found ih => exact Nat.succ_le_succ ih
  | case4 t space head found ih =>
    rw [length_tail] at ih
    rw [length_cons, length_cons]
    omega
  | case5 t space head found ih => exact Nat.succ_le_succ ih
  | case6 c t space found other ih =>
    exact Nat.succ_le_succ (Nat.le_trans ih (dropWhile_sublist isWord).length_le)

/-- Whether a sequence of tokens begins with one of these symbols. -/
def begins (toks : List UInt8) : List Token → Bool
  | .op o :: _ => toks.contains o.char
  | _ => false

theorem begins_cases {toks : List UInt8} {ts : List Token} (starts : begins toks ts = true) :
    ∃ o rest, ts = .op o :: rest ∧ o.char ∈ toks := by
  cases ts with
  | nil => contradiction
  | cons t rest =>
    cases t with
    | op o => exact ⟨o, rest, rfl, contains_iff_mem.mp starts⟩
    | word w => contradiction

/-- What `peek` sees. -/
theorem peek_eq (ps : Ptr) (toks : List UInt8) (known : toks ⊆ symbols) :
    peek ps toks = (skip ps, begins toks (tokens ps)) := by
  rw [peek, ← tokens_skip ps]
  cases skipped : skip ps with
  | nil => rw [tokens, begins]; simp
  | cons c t =>
    have space := skip_head skipped
    dsimp only
    rw [tokens_cons t space]
    cases found : single c with
    | some o => rw [begins, single_char found]
    | none =>
      dsimp only
      split
      · rename_i gt
        split
        · rw [begins, gt]
          rfl
        · rw [begins, gt]
          rfl
      grind [isWord_of_not, isWord_not_symbol, begins]

end Xv6.Sh
