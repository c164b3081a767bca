import Mathlib.Data.List.TakeWhile
import Xv6.Sh.Grammar

/-!
# The parser accepts its grammar

One lemma per function and direction. What a function returns is derived from the tokens that it
took off the input (`_sound`). Where the input begins with the tokens of a derivation, and what
follows them cannot continue it, the function returns the command of the derivation (`_complete`).
With four units of fuel for each token, and four more, no function runs out of it.
-/

namespace Xv6.Sh

open Xv6.Sh.Symbol

open List (append_assoc cons_append length_append length_cons length_set map_append map_cons
  nil_append)

section Except

variable {α β : Type} {x : Except Panic α} {f : α → Except Panic β}

theorem bind_ok {b : β} : (x >>= f) = .ok b ↔ ∃ a, x = .ok a ∧ f a = .ok b := by
  cases x with
  | error e =>
    constructor
    · intro run
      contradiction
    · rintro ⟨a, run, -⟩
      contradiction
  | ok a =>
    constructor
    · intro run
      exact ⟨a, rfl, run⟩
    · rintro ⟨a', run, rest⟩
      injection run with same
      subst same
      exact rest

theorem bind_fuel (first : x ≠ .error .fuel) (rest : ∀ a, x = .ok a → f a ≠ .error .fuel) :
    (x >>= f) ≠ .error .fuel := by
  cases x with
  | error e =>
    intro run
    injection run with same
    exact first (same ▸ rfl)
  | ok a => exact rest a rfl

end Except

/-! ## Trees -/

/-- A redirection with another word. -/
def Redir.map {α β : Type} (f : α → β) (r : Redir α) : Redir β := ⟨f r.file, r.mode, r.fd⟩

variable {α β : Type} {P Q : α → Prop} {argc : Nat} {x : Symbol}

theorem map_wrap (f : α → β) (cmd : Cmd α) (redirs : List (Redir α)) :
    (wrap cmd redirs).map f = wrap (cmd.map f) (redirs.map (Redir.map f)) := by
  induction redirs generalizing cmd with
  | nil => rfl
  | cons r redirs ih => exact ih _

theorem map_backs (f : α → β) (n : Nat) (cmd : Cmd α) :
    (backs n cmd).map f = backs n (cmd.map f) := by
  induction n generalizing cmd with
  | zero => rfl
  | succ n ih => exact ih _

/-- All words of a tree have a property. -/
def Cmd.All {α : Type} (P : α → Prop) : Cmd α → Prop
  | .exec argv => ∀ w ∈ argv, P w
  | .redir cmd file _ _ => cmd.All P ∧ P file
  | .pipe left right => left.All P ∧ right.All P
  | .list left right => left.All P ∧ right.All P
  | .back cmd => cmd.All P

theorem Cmd.All.mono {cmd : Cmd α} (all : cmd.All P) (implies : ∀ w, P w → Q w) : cmd.All Q := by
  induction cmd with
  | exec argv => exact fun w member => implies w (all w member)
  | redir cmd file mode fd ih => exact ⟨ih all.1, implies file all.2⟩
  | pipe left right ihl ihr => exact ⟨ihl all.1, ihr all.2⟩
  | list left right ihl ihr => exact ⟨ihl all.1, ihr all.2⟩
  | back cmd ih => exact ih all

theorem Cmd.All.and {cmd : Cmd α} (left : cmd.All P) (right : cmd.All Q) :
    cmd.All fun w => P w ∧ Q w := by
  induction cmd with
  | exec argv => exact fun w member => ⟨left w member, right w member⟩
  | redir cmd file mode fd ih => exact ⟨ih left.1 right.1, left.2, right.2⟩
  | pipe c d ihl ihr | list c d ihl ihr => exact ⟨ihl left.1 right.1, ihr left.2 right.2⟩
  | back cmd ih => exact ih left right

theorem Cmd.All.wrap {cmd : Cmd α} {redirs : List (Redir α)} (all : cmd.All P)
    (files : ∀ r ∈ redirs, P r.file) : (wrap cmd redirs).All P := by
  induction redirs generalizing cmd with
  | nil => exact all
  | cons r redirs ih =>
    exact ih ⟨all, files r List.mem_cons_self⟩ fun s member =>
      files s (List.mem_cons_of_mem _ member)

theorem Cmd.All.backs {cmd : Cmd α} (all : cmd.All P) (n : Nat) : (backs n cmd).All P := by
  induction n generalizing cmd with
  | zero => exact all
  | succ n ih => exact @ih (.back cmd) all

/-! ## What is returned is derived -/

section Sound

variable {fuel : Nat} {ps ps' : Ptr} {cmd : Cmd Word} {redirs : List (Redir Word)} {o : Op}

/-- Only `>` and `>>` begin with the same character. -/
theorem Op.eq_of_char {p : Op} (lone : o ≠ .gt ∧ o ≠ .append) (same : p.char = o.char) : p = o := by
  cases o with
  | gt => exact absurd rfl lone.1
  | append => exact absurd rfl lone.2
  | lt | bar | amp | semi | lparen | rparen =>
    cases p <;> first | rfl | exact absurd same (by decide)

/-- A symbol that was seen is taken. -/
theorem taken (lone : o ≠ .gt ∧ o ≠ .append) (starts : begins [o.char] (tokens ps) = true) :
    tokens ps = .op o :: tokens (gettoken (skip ps)).ps ∧ (gettoken (skip ps)).ps <:+ ps := by
  grind [begins_cases, tokens_skip, Op.eq_of_char, gettoken_cases, skip_suffix]

/-- The symbols that begin a redirection. -/
theorem Redirs.cons {w : List UInt8} {ts : List Token} {rs : List (Redir (List UInt8))}
    (kind : o.char ∈ [60, 62]) (rest : Redirs ts rs) :
    ∃ mode fd, redirection (.op o) = some (mode, fd) ∧
      Redirs (.op o :: .word w :: ts) (⟨w, mode, fd⟩ :: rs) := by
  cases o with
  | lt => exact ⟨_, _, rfl, rest.input⟩
  | gt => exact ⟨_, _, rfl, rest.output⟩
  | append => exact ⟨_, _, rfl, rest.append⟩
  | bar | amp | semi | lparen | rparen => exact absurd kind (by decide)

theorem redirs_sound (returns : parseredirs fuel ps = .ok (redirs, ps')) :
    (∃ ts, Redirs ts (redirs.map (Redir.map Word.text)) ∧ tokens ps = ts ++ tokens ps') ∧
      ps' <:+ ps ∧ ∀ r ∈ redirs, Run ps r.file := by
  induction fuel generalizing ps ps' redirs with
  | zero => contradiction
  | succ fuel ih =>
    rw [parseredirs, peek_eq ps _ (by decide)] at returns
    dsimp only at returns
    split at returns
    · rename_i starts
      obtain ⟨o, rest, first, kind⟩ := begins_cases starts
      rw [← tokens_skip] at first
      obtain ⟨ret, after⟩ := gettoken_op first
      have suffix := (gettoken_cases (skip ps)).1.trans (skip_suffix ps)
      split at returns
      · contradiction
      · rename_i isWord
        obtain ⟨files, none | ⟨p, -, other⟩ | ⟨second, -, run⟩⟩ :=
          gettoken_cases (gettoken (skip ps)).ps
        · exact absurd none.2.1 (by simp_all)
        · exact absurd other (by simp_all)
        · obtain ⟨⟨more, ps''⟩, loops, returns⟩ := bind_ok.mp returns
          obtain ⟨⟨ts, derived, consumed⟩, shorter, runs⟩ := ih loops
          have within := files.trans suffix
          obtain ⟨mode, fd, switch, derives⟩ := derived.cons
            (w := (gettoken (gettoken (skip ps)).ps).word.text) kind
          rw [ret, switch] at returns
          cases returns
          refine ⟨⟨_, derives, ?_⟩, shorter.trans within, ?_⟩
          · rw [← tokens_skip ps, first, ← after, second, consumed]
            rfl
          · intro r member
            rcases List.mem_cons.mp member with rfl | member
            · exact run.mono suffix
            · exact (runs r member).mono within
    · cases returns
      exact ⟨⟨[], .nil, (tokens_skip ps).symm⟩, skip_suffix ps,
        fun _ member => absurd member (by simp)⟩

theorem args_sound {argv : List Word} (few : argc < maxArgs)
    (returns : parseargs fuel argc ps = .ok (argv, redirs, ps')) :
    (∃ ts, Args ts (argv.map Word.text) (redirs.map (Redir.map Word.text)) ∧
        tokens ps = ts ++ tokens ps') ∧ argc + argv.length < maxArgs ∧ ps' <:+ ps ∧
      (∀ w ∈ argv, Run ps w) ∧ ∀ r ∈ redirs, Run ps r.file := by
  induction fuel generalizing ps ps' argc argv redirs with
  | zero => contradiction
  | succ fuel ih =>
    rw [parseargs, peek_eq ps _ (by decide)] at returns
    dsimp only at returns
    obtain ⟨shorter, got⟩ := gettoken_cases (skip ps)
    have within := shorter.trans (skip_suffix ps)
    rw [tokens_skip] at got
    split at returns
    · cases returns
      exact ⟨⟨[], .nil, (tokens_skip ps).symm⟩, few, skip_suffix ps,
        fun _ member => absurd member (by simp), fun _ member => absurd member (by simp)⟩
    · obtain ⟨none, ret, after⟩ | ⟨o, -, ret⟩ | ⟨first, ret, run⟩ := got
      · rw [if_pos ret] at returns
        cases returns
        exact ⟨⟨[], .nil, by rw [none, after]; rfl⟩, few, within,
          fun _ member => absurd member (by simp), fun _ member => absurd member (by simp)⟩
      · rw [if_neg (by rw [ret]; simp), if_pos (by rw [ret]; simp)] at returns
        contradiction
      · rw [if_neg (by rw [ret]; simp), if_neg (by rw [ret]; simp)] at returns
        split at returns
        · contradiction
        · rename_i room
          obtain ⟨⟨files, ps₁⟩, redirects, returns⟩ := bind_ok.mp returns
          obtain ⟨⟨more, further, ps₂⟩, loops, returns⟩ := bind_ok.mp returns
          simp only [Except.ok.injEq, Prod.mk.injEq] at returns
          obtain ⟨rfl, rfl, rfl⟩ := returns
          obtain ⟨⟨ts, derived, consumed⟩, suffix, runs⟩ := redirs_sound redirects
          obtain ⟨⟨us, derived', consumed'⟩, count, suffix', words, runs'⟩ := ih (by omega) loops
          have inner := suffix.trans within
          dsimp only at suffix' consumed' count words runs'
          refine ⟨⟨.word (gettoken (skip ps)).word.text :: (ts ++ us), ?_, ?_⟩, ?_,
            suffix'.trans inner, ?_, ?_⟩
          · rw [map_cons, map_append]
            exact .cons derived derived'
          · rw [first, consumed, consumed', cons_append, append_assoc]
          · rw [length_cons]
            omega
          · intro w member
            rcases List.mem_cons.mp member with rfl | member
            · exact run.mono (skip_suffix ps)
            · exact (words w member).mono inner
          · intro r member
            rcases List.mem_append.mp member with member | member
            · exact (runs r member).mono within
            · exact (runs' r member).mono inner

theorem backs_sound {cmd' : Cmd Word} (returns : parsebacks fuel cmd ps = .ok (cmd', ps')) :
    ∃ n, cmd' = backs n cmd ∧ tokens ps = List.replicate n (.op .amp) ++ tokens ps' ∧
      ps' <:+ ps := by
  induction fuel generalizing ps cmd with
  | zero => contradiction
  | succ fuel ih =>
    rw [parsebacks, peek_eq ps _ (by decide)] at returns
    dsimp only at returns
    split at returns
    · rename_i starts
      obtain ⟨first, within⟩ := taken (o := .amp) (by decide) starts
      obtain ⟨n, result, consumed, suffix⟩ := ih returns
      refine ⟨n + 1, result, ?_, suffix.trans within⟩
      rw [first, consumed]
      rfl
    · cases returns
      exact ⟨0, rfl, (tokens_skip ps).symm, skip_suffix ps⟩

/-- The function for a nonterminal. -/
def parse : Symbol → Nat → Ptr → Except Panic (Cmd Word × Ptr)
  | .line => parseline
  | .pipe => parsepipe
  | .exec => parseexec
  | .block => parseblock

/-- What a function for a nonterminal has taken off the input, and the command for it. -/
structure Parsed (x : Symbol) (ps : Ptr) (cmd : Cmd Word) (ps' : Ptr) : Prop where
  derived : ∃ ts, Derives x ts (cmd.map Word.text) ∧ tokens ps = ts ++ tokens ps'
  suffix : ps' <:+ ps
  runs : cmd.All (Run ps)

theorem block_sound
    (inner : ∀ {ps ps' : Ptr} {cmd : Cmd Word}, parseline fuel ps = .ok (cmd, ps') →
      Parsed .line ps cmd ps') (returns : parseblock (fuel + 1) ps = .ok (cmd, ps')) :
    Parsed .block ps cmd ps' := by
  rw [parseblock, peek_eq ps _ (by decide)] at returns
  dsimp only at returns
  split at returns
  · rename_i opens
    obtain ⟨first, within⟩ := taken (o := .lparen) (by decide) opens
    obtain ⟨⟨body, ps₁⟩, lines, returns⟩ := bind_ok.mp returns
    obtain ⟨⟨ts, derived, consumed⟩, suffix, runs⟩ := inner lines
    dsimp only at returns
    rw [peek_eq ps₁ _ (by decide)] at returns
    dsimp only at returns
    split at returns
    · rename_i closes
      obtain ⟨second, within'⟩ := taken (o := .rparen) (by decide) closes
      obtain ⟨⟨redirs, ps₂⟩, redirects, returns⟩ := bind_ok.mp returns
      cases returns
      obtain ⟨⟨us, derived', consumed'⟩, suffix', files⟩ := redirs_sound redirects
      have inner := suffix.trans within
      refine ⟨⟨.op .lparen :: (ts ++ .op .rparen :: us), ?_, ?_⟩,
        suffix'.trans (within'.trans inner), ?_⟩
      · rw [map_wrap]
        exact .block derived derived'
      · rw [first, consumed, second, consumed']
        simp
      · exact (runs.mono fun w run => run.mono within).wrap
          fun r member => (files r member).mono (within'.trans inner)
    · contradiction
  · contradiction

theorem exec_sound
    (inner : ∀ {ps ps' : Ptr} {cmd : Cmd Word}, parseblock fuel ps = .ok (cmd, ps') →
      Parsed .block ps cmd ps') (returns : parseexec (fuel + 1) ps = .ok (cmd, ps')) :
    Parsed .exec ps cmd ps' := by
  rw [parseexec, peek_eq ps _ (by decide)] at returns
  dsimp only at returns
  split at returns
  · obtain ⟨⟨ts, derived, consumed⟩, suffix, runs⟩ := inner returns
    rw [tokens_skip] at consumed
    exact ⟨⟨ts, .nested derived, consumed⟩, suffix.trans (skip_suffix ps),
      runs.mono fun w run => run.mono (skip_suffix ps)⟩
  · obtain ⟨⟨redirs, ps₁⟩, redirects, returns⟩ := bind_ok.mp returns
    obtain ⟨⟨argv, more, ps₂⟩, loops, returns⟩ := bind_ok.mp returns
    cases returns
    obtain ⟨⟨ts, derived, consumed⟩, suffix, files⟩ := redirs_sound redirects
    obtain ⟨⟨us, derived', consumed'⟩, few, suffix', words, files'⟩ := args_sound (by decide) loops
    rw [tokens_skip] at consumed
    dsimp only at suffix' consumed' words files'
    have within := suffix.trans (skip_suffix ps)
    refine ⟨⟨ts ++ us, ?_, ?_⟩, suffix'.trans within, ?_⟩
    · rw [map_wrap, map_append]
      refine .exec derived derived' ?_
      rw [List.length_map]
      exact Nat.le_of_lt_succ (by simpa [maxArgs] using few)
    · rw [consumed, consumed', append_assoc]
    · refine Cmd.All.wrap (fun w member => (words w member).mono within) fun r member => ?_
      constructor <;> grind [skip_suffix, cases Run]

theorem pipe_sound
    (inner : ∀ {ps ps' : Ptr} {cmd : Cmd Word}, parseexec fuel ps = .ok (cmd, ps') →
      Parsed .exec ps cmd ps')
    (again : ∀ {ps ps' : Ptr} {cmd : Cmd Word}, parsepipe fuel ps = .ok (cmd, ps') →
      Parsed .pipe ps cmd ps') (returns : parsepipe (fuel + 1) ps = .ok (cmd, ps')) :
    Parsed .pipe ps cmd ps' := by
  rw [parsepipe] at returns
  obtain ⟨⟨left, ps₁⟩, first, returns⟩ := bind_ok.mp returns
  obtain ⟨⟨ts, derived, consumed⟩, suffix, runs⟩ := inner first
  dsimp only at returns
  rw [peek_eq ps₁ _ (by decide)] at returns
  dsimp only at returns
  split at returns
  · rename_i bar
    obtain ⟨second, within⟩ := taken (o := .bar) (by decide) bar
    obtain ⟨⟨right, ps₂⟩, rest, returns⟩ := bind_ok.mp returns
    cases returns
    obtain ⟨⟨us, derived', consumed'⟩, suffix', runs'⟩ := again rest
    have inner := within.trans suffix
    refine ⟨⟨ts ++ .op .bar :: us, .pipes derived derived', ?_⟩, suffix'.trans inner, runs,
      runs'.mono fun w run => run.mono inner⟩
    rw [consumed, second, consumed']
    simp
  · cases returns
    exact ⟨⟨ts, .pipe derived, by rw [consumed, tokens_skip]⟩, (skip_suffix ps₁).trans suffix, runs⟩

theorem line_sound
    (inner : ∀ {ps ps' : Ptr} {cmd : Cmd Word}, parsepipe fuel ps = .ok (cmd, ps') →
      Parsed .pipe ps cmd ps')
    (again : ∀ {ps ps' : Ptr} {cmd : Cmd Word}, parseline fuel ps = .ok (cmd, ps') →
      Parsed .line ps cmd ps') (returns : parseline (fuel + 1) ps = .ok (cmd, ps')) :
    Parsed .line ps cmd ps' := by
  rw [parseline] at returns
  obtain ⟨⟨left, ps₁⟩, first, returns⟩ := bind_ok.mp returns
  obtain ⟨⟨ts, derived, consumed⟩, suffix, runs⟩ := inner first
  obtain ⟨⟨left', ps₂⟩, loops, returns⟩ := bind_ok.mp returns
  obtain ⟨n, rfl, consumed', suffix'⟩ := backs_sound loops
  dsimp only at returns consumed' suffix'
  have all : (backs n left).All (Run ps) := runs.backs n
  rw [peek_eq ps₂ _ (by decide)] at returns
  dsimp only at returns
  have outer := suffix'.trans suffix
  split at returns
  · rename_i semi
    obtain ⟨second, within⟩ := taken (o := .semi) (by decide) semi
    obtain ⟨⟨right, ps₃⟩, rest, returns⟩ := bind_ok.mp returns
    cases returns
    obtain ⟨⟨us, derived', consumed''⟩, suffix'', runs'⟩ := again rest
    have inner := within.trans outer
    refine ⟨⟨ts ++ (List.replicate n (.op .amp) ++ .op .semi :: us), ?_, ?_⟩,
      suffix''.trans inner, all, runs'.mono fun w run => run.mono inner⟩
    · rw [Cmd.map, map_backs]
      exact .lines derived n derived'
    · rw [consumed, consumed', second, consumed'']
      simp
  · cases returns
    refine ⟨⟨ts ++ List.replicate n (.op .amp), ?_, ?_⟩, (skip_suffix ps₂).trans outer, all⟩
    · rw [map_backs]
      exact .line derived n
    · rw [consumed, consumed', tokens_skip, append_assoc]

/-- Every function, with any fuel. -/
theorem parse_sound (x : Symbol) (fuel : Nat) (returns : parse x fuel ps = .ok (cmd, ps')) :
    Parsed x ps cmd ps' := by
  induction fuel generalizing x ps ps' cmd with
  | zero => cases x <;> simp [parse, parseline, parsepipe, parseexec, parseblock] at returns
  | succ fuel ih =>
    cases x with
    | line => exact line_sound (fun run => ih .pipe run) (fun run => ih .line run) returns
    | pipe => exact pipe_sound (fun run => ih .exec run) (fun run => ih .pipe run) returns
    | exec => exact exec_sound (fun run => ih .block run) returns
    | block => exact block_sound (fun run => ih .line run) returns

end Sound

/-! ## The fuel suffices -/

section Fuel

variable {fuel : Nat} {ps : Ptr} {cmd : Cmd Word}

/-- A symbol that was seen is a token less. -/
theorem taken_length {toks : List UInt8} (starts : begins toks (tokens ps) = true) :
    (tokens (gettoken (skip ps)).ps).length + 1 = (tokens ps).length := by
  obtain ⟨o, rest, first, -⟩ := begins_cases starts
  rw [← tokens_skip] at first
  rw [← tokens_skip ps, first, (gettoken_op first).2, length_cons]

theorem gettoken_length (ps : Ptr) (some : (gettoken ps).ret ≠ .eof) :
    (tokens (gettoken ps).ps).length + 1 = (tokens ps).length := by
  grind [gettoken_cases]

section

variable (enough : (tokens ps).length < fuel)

include enough

theorem redirs_fuel : parseredirs fuel ps ≠ .error .fuel := by
  induction fuel generalizing ps with
  | zero => contradiction
  | succ fuel ih =>
    rw [parseredirs, peek_eq ps _ (by decide)]
    grind [taken_length, gettoken_length, bind_fuel]

theorem args_fuel : parseargs fuel argc ps ≠ .error .fuel := by
  induction fuel generalizing ps argc with
  | zero => contradiction
  | succ fuel ih =>
    rw [parseargs, peek_eq ps _ (by decide)]
    dsimp only
    split
    · simp
    · split
      · simp
      · rename_i some
        have first := gettoken_length (skip ps) some
        rw [tokens_skip] at first
        split
        · simp
        · split
          · simp
          · refine bind_fuel (redirs_fuel (Nat.lt_succ_of_le (tokens_length _))) ?_
            rintro ⟨redirs, ps₁⟩ redirects
            obtain ⟨⟨ts, -, consumed⟩, -, -⟩ := redirs_sound redirects
            grind [bind_fuel]

theorem backs_fuel : parsebacks fuel cmd ps ≠ .error .fuel := by
  induction fuel generalizing ps cmd with
  | zero => contradiction
  | succ fuel ih =>
    rw [parsebacks, peek_eq ps _ (by decide)]
    dsimp only
    split
    · rename_i starts
      have first := taken_length starts
      exact ih (by omega)
    · simp

end

/-- What a function needs besides the fuel for the tokens. -/
def Symbol.weight : Symbol → Nat
  | .line => 4
  | .pipe => 3
  | .exec => 2
  | .block => 1

theorem Parsed.length {ps' : Ptr} (parsed : Parsed x ps cmd ps') :
    (tokens ps').length ≤ (tokens ps).length := by
  obtain ⟨ts, -, consumed⟩ := parsed.derived
  rw [consumed, length_append]
  exact Nat.le_add_left _ _

theorem parse_fuel (x : Symbol) (fuel : Nat) (enough : 4 * (tokens ps).length + x.weight ≤ fuel) :
    parse x fuel ps ≠ .error .fuel := by
  induction fuel generalizing x ps with
  | zero => cases x <;> simp [weight] at enough
  | succ fuel ih =>
    cases x with
    | line =>
      change 4 * (tokens ps).length + 4 ≤ _ at enough
      rw [parse, parseline]
      refine bind_fuel (ih .pipe (by simp only [weight]; omega)) ?_
      rintro ⟨cmd, ps₁⟩ first
      have shorter := (parse_sound .pipe fuel first).length
      refine bind_fuel (backs_fuel (Nat.lt_succ_of_le (tokens_length _))) ?_
      rintro ⟨cmd', ps₂⟩ loops
      obtain ⟨n, -, consumed, -⟩ := backs_sound loops
      have length := congrArg List.length consumed
      rw [length_append] at length
      dsimp only at length ⊢
      rw [peek_eq ps₂ _ (by decide)]
      dsimp only
      split
      · rename_i starts
        have next := taken_length starts
        refine bind_fuel (ih .line (by simp only [weight]; omega)) fun a _ => ?_
        simp
      · simp
    | pipe =>
      change 4 * (tokens ps).length + 3 ≤ _ at enough
      rw [parse, parsepipe]
      refine bind_fuel (ih .exec (by simp only [weight]; omega)) ?_
      rintro ⟨cmd, ps₁⟩ first
      have shorter := (parse_sound .exec fuel first).length
      dsimp only
      rw [peek_eq ps₁ _ (by decide)]
      dsimp only
      split
      · rename_i starts
        have next := taken_length starts
        refine bind_fuel (ih .pipe (by simp only [weight]; omega)) fun a _ => ?_
        simp
      · simp
    | exec =>
      change 4 * (tokens ps).length + 2 ≤ _ at enough
      rw [parse, parseexec, peek_eq ps _ (by decide)]
      dsimp only
      split
      · exact ih .block (by rw [tokens_skip]; simp only [weight]; omega)
      grind [bind_fuel, redirs_fuel, tokens_length, args_fuel]
    | block =>
      change 4 * (tokens ps).length + 1 ≤ _ at enough
      rw [parse, parseblock, peek_eq ps _ (by decide)]
      dsimp only
      split
      · rename_i starts
        have next := taken_length starts
        refine bind_fuel (ih .line (by simp only [weight]; omega)) ?_
        grind [bind_fuel, redirs_fuel, tokens_length]
      · simp

end Fuel

/-! ## What is derived is returned -/

section Complete

variable {fuel : Nat} {ps : Ptr} {rest : List Token} {c d : Cmd (List UInt8)}
  {rs ss : List (Redir (List UInt8))} {ws : List (List UInt8)} {ts : List Token} {us : List Token}
  {toks : List UInt8} {n : Nat} {o : Op}

/-- The input ends, or goes on with one of these symbols. -/
def Follows (toks : List UInt8) (rest : List Token) : Prop := rest = [] ∨ begins toks rest = true

theorem Follows.mono {more : List UInt8} (follows : Follows toks rest) (known : toks ⊆ more) :
    Follows more rest := by
  refine follows.imp_right fun starts => ?_
  obtain ⟨o, us, rfl, kind⟩ := begins_cases starts
  exact List.contains_iff_mem.mpr (known kind)

theorem Follows.of_op (known : o.char ∈ toks) (us : List Token) : Follows toks (.op o :: us) :=
  .inr (List.contains_iff_mem.mpr known)

/-- The symbols that follow are no others. -/
theorem Follows.not_begins {others : List UInt8} (follows : Follows toks rest)
    (apart : toks.all (fun c => !others.contains c) = true) : begins others rest = false := by
  grind [begins_cases, Follows]

/-- A redirection is taken off the input. -/
theorem redirs_step {w : List UInt8} {mode fd : Nat} (kind : o.char ∈ [60, 62])
    (switch : redirection (.op o) = some (mode, fd)) (first : tokens ps = .op o :: .word w :: us)
    (next : ∀ ps, tokens ps = us → ∃ redirs ps', parseredirs fuel ps = .ok (redirs, ps') ∧
      redirs.map (Redir.map Word.text) = rs ∧ tokens ps' = rest) :
    ∃ redirs ps', parseredirs (fuel + 1) ps = .ok (redirs, ps') ∧
      redirs.map (Redir.map Word.text) = ⟨w, mode, fd⟩ :: rs ∧ tokens ps' = rest := by
  have starts : begins [60, 62] (tokens ps) = true := by
    rw [first]
    exact List.contains_iff_mem.mpr kind
  rw [← tokens_skip] at first
  obtain ⟨ret, after⟩ := gettoken_op first
  obtain ⟨isWord, after', text⟩ := gettoken_word after
  obtain ⟨redirs, ps', loops, redirected, remains⟩ := next _ after'
  refine ⟨⟨(gettoken (gettoken (skip ps)).ps).word, mode, fd⟩ :: redirs, ps', ?_, ?_, remains⟩
  · rw [parseredirs, peek_eq ps _ (by decide)]
    dsimp only
    rw [if_pos starts, if_neg (fun other => other isWord), ret, switch]
    exact bind_ok.mpr ⟨_, loops, rfl⟩
  · rw [map_cons, redirected, Redir.map, text]

theorem redirs_complete (derived : Redirs ts rs) (consumes : tokens ps = ts ++ rest)
    (stops : begins [60, 62] rest = false) (enough : ts.length < fuel) :
    ∃ redirs ps', parseredirs fuel ps = .ok (redirs, ps') ∧
      redirs.map (Redir.map Word.text) = rs ∧ tokens ps' = rest := by
  induction derived generalizing ps fuel with
  | nil =>
    cases fuel with
    | zero => contradiction
    | succ fuel =>
      refine ⟨[], skip ps, ?_, rfl, (tokens_skip ps).trans consumes⟩
      rw [parseredirs, peek_eq ps _ (by decide), consumes]
      dsimp only [nil_append]
      rw [stops]
      rfl
  | input _ ih | output _ ih | append _ ih =>
    cases fuel with
    | zero => contradiction
    | succ fuel =>
      rw [length_cons, length_cons] at enough
      exact redirs_step (by decide) rfl consumes fun ps after => ih after (by omega)

/-- Words, or the end of a command, do not begin a redirection. -/
theorem Args.not_redirects (args : Args ts ws rs) (follows : Follows [124, 41, 38, 59] rest) :
    begins [60, 62] (ts ++ rest) = false := by
  cases args with
  | nil => exact follows.not_begins (by decide)
  | cons redirs more => rfl

theorem args_complete (derived : Args ts ws rs) (consumes : tokens ps = ts ++ rest)
    (follows : Follows [124, 41, 38, 59] rest) (few : argc + ws.length < maxArgs)
    (enough : ts.length < fuel) :
    ∃ argv redirs ps', parseargs fuel argc ps = .ok (argv, redirs, ps') ∧
      argv.map Word.text = ws ∧ redirs.map (Redir.map Word.text) = rs ∧ tokens ps' = rest := by
  induction derived generalizing ps fuel argc with
  | nil =>
    cases fuel with
    | zero => contradiction
    | succ fuel =>
      rw [nil_append] at consumes
      rw [parseargs, peek_eq ps _ (by decide), consumes]
      dsimp only
      rcases follows with rfl | starts
      · obtain ⟨ret, after⟩ := gettoken_nil ((tokens_skip ps).trans consumes)
        refine ⟨[], [], (gettoken (skip ps)).ps, ?_, rfl, rfl, after⟩
        rw [if_neg (by simp [begins]), if_pos ret]
      · exact ⟨[], [], skip ps, if_pos starts, rfl, rfl, (tokens_skip ps).trans consumes⟩
  | @cons w ts us ws rs ss redirs more ih =>
    cases fuel with
    | zero => contradiction
    | succ fuel =>
      rw [length_cons, length_append] at enough
      rw [length_cons] at few
      rw [cons_append, append_assoc] at consumes
      obtain ⟨ret, after, text⟩ := gettoken_word ((tokens_skip ps).trans consumes)
      have room := tokens_length (gettoken (skip ps)).ps
      rw [after, length_append] at room
      obtain ⟨files, ps₁, redirects, filed, after'⟩ := redirs_complete redirs after
        (more.not_redirects follows) (Nat.lt_succ_of_le (le_trans (Nat.le_add_right _ _) room))
      have fewer : argc + 1 + ws.length < maxArgs := by omega
      have shorter : us.length < fuel := by omega
      obtain ⟨argv, further, ps₂, loops, words, filed', remains⟩ := ih after' fewer shorter
      refine ⟨(gettoken (skip ps)).word :: argv, files ++ further, ps₂, ?_, ?_, ?_, remains⟩
      · rw [parseargs, peek_eq ps _ (by decide), consumes]
        grind [begins, bind_ok]
      · rw [map_cons, words, text]
      · rw [map_append, filed, filed']

theorem backs_complete (cmd : Cmd Word) (consumes : tokens ps = List.replicate n (.op .amp) ++ rest)
    (stops : begins [38] rest = false) (enough : n < fuel) :
    ∃ ps', parsebacks fuel cmd ps = .ok (backs n cmd, ps') ∧ tokens ps' = rest := by
  induction n generalizing ps fuel cmd with
  | zero =>
    cases fuel with
    | zero => contradiction
    | succ fuel =>
      rw [List.replicate_zero, nil_append] at consumes
      refine ⟨skip ps, ?_, (tokens_skip ps).trans consumes⟩
      rw [parsebacks, peek_eq ps _ (by decide), consumes]
      dsimp only
      rw [stops]
      rfl
  | succ n ih =>
    cases fuel with
    | zero => contradiction
    | succ fuel =>
      rw [List.replicate_succ, cons_append] at consumes
      have after := (gettoken_op ((tokens_skip ps).trans consumes)).2
      obtain ⟨ps', loops, remains⟩ := ih (.back cmd) after (Nat.lt_of_succ_lt_succ enough)
      refine ⟨ps', ?_, remains⟩
      rw [parsebacks, peek_eq ps _ (by decide), consumes]
      exact loops

/-- The symbols that may follow a nonterminal. -/
def Symbol.follow : Symbol → List UInt8
  | .line => [41]
  | .pipe => [41, 38, 59]
  | .exec | .block => [124, 41, 38, 59]

/-- The function for a nonterminal returns a command, and leaves the rest of the input. -/
def Returns (x : Symbol) (fuel : Nat) (ps : Ptr) (c : Cmd (List UInt8)) (rest : List Token) :
    Prop :=
  ∃ cmd ps', parse x fuel ps = .ok (cmd, ps') ∧ cmd.map Word.text = c ∧ tokens ps' = rest

/-- `pipe '&'*`, where neither `&` nor `;` follows. -/
theorem line_complete (first : Returns .pipe fuel ps c (List.replicate n (.op .amp) ++ rest))
    (follows : Follows [41] rest) : Returns .line (fuel + 1) ps (backs n c) rest := by
  obtain ⟨cmd, ps₁, runs, rfl, after⟩ := first
  have room := tokens_length ps₁
  rw [after, length_append, List.length_replicate] at room
  have enough : n < ps₁.length + 1 := by omega
  obtain ⟨ps₂, loops, after'⟩ := backs_complete cmd after (follows.not_begins (by decide)) enough
  refine ⟨backs n cmd, skip ps₂, ?_, map_backs .., (tokens_skip ps₂).trans after'⟩
  rw [parse, parseline]
  refine bind_ok.mpr ⟨_, runs, bind_ok.mpr ⟨_, loops, ?_⟩⟩
  dsimp only
  rw [peek_eq ps₂ _ (by decide), after', follows.not_begins (by decide)]
  rfl

/-- `pipe '&'* ';' line`. -/
theorem lines_complete
    (first : Returns .pipe fuel ps c (List.replicate n (.op .amp) ++ .op .semi :: us))
    (next : ∀ ps, tokens ps = us → Returns .line fuel ps d rest) :
    Returns .line (fuel + 1) ps (.list (backs n c) d) rest := by
  obtain ⟨cmd, ps₁, runs, rfl, after⟩ := first
  have room := tokens_length ps₁
  rw [after, length_append, List.length_replicate] at room
  have enough : n < ps₁.length + 1 := by omega
  obtain ⟨ps₂, loops, after'⟩ := backs_complete cmd after rfl enough
  have taken := (gettoken_op ((tokens_skip ps₂).trans after')).2
  obtain ⟨cmd', ps₃, runs', rfl, remains⟩ := next _ taken
  refine ⟨.list (backs n cmd) cmd', ps₃, ?_, by rw [Cmd.map, map_backs], remains⟩
  rw [parse, parseline]
  refine bind_ok.mpr ⟨_, runs, bind_ok.mpr ⟨_, loops, ?_⟩⟩
  dsimp only
  rw [peek_eq ps₂ _ (by decide), after']
  exact bind_ok.mpr ⟨_, runs', rfl⟩

/-- `exec`, where no `|` follows. -/
theorem pipe_complete (first : Returns .exec fuel ps c rest) (follows : Follows [41, 38, 59] rest) :
    Returns .pipe (fuel + 1) ps c rest := by
  obtain ⟨cmd, ps₁, runs, rfl, after⟩ := first
  refine ⟨cmd, skip ps₁, ?_, rfl, (tokens_skip ps₁).trans after⟩
  rw [parse, parsepipe]
  refine bind_ok.mpr ⟨_, runs, ?_⟩
  dsimp only
  rw [peek_eq ps₁ _ (by decide), after, follows.not_begins (by decide)]
  rfl

/-- `exec '|' pipe`. -/
theorem pipes_complete (first : Returns .exec fuel ps c (.op .bar :: us))
    (next : ∀ ps, tokens ps = us → Returns .pipe fuel ps d rest) :
    Returns .pipe (fuel + 1) ps (.pipe c d) rest := by
  obtain ⟨cmd, ps₁, runs, rfl, after⟩ := first
  have taken := (gettoken_op ((tokens_skip ps₁).trans after)).2
  obtain ⟨cmd', ps₂, runs', rfl, remains⟩ := next _ taken
  refine ⟨.pipe cmd cmd', ps₂, ?_, rfl, remains⟩
  rw [parse, parsepipe]
  refine bind_ok.mpr ⟨_, runs, ?_⟩
  dsimp only
  rw [peek_eq ps₁ _ (by decide), after]
  exact bind_ok.mpr ⟨_, runs', rfl⟩

/-- A command does not begin with `(` unless it is a block. -/
theorem Redirs.not_block (redirs : Redirs ts rs) (args : Args us ws ss)
    (follows : Follows [124, 41, 38, 59] rest) : begins [40] (ts ++ us ++ rest) = false := by
  cases redirs with
  | nil =>
    cases args with
    | nil => exact follows.not_begins (by decide)
    | cons redirs more => rfl
  | input _ | output _ | append _ => rfl

/-- `redir* (word redir*)*`. -/
theorem exec_complete (redirs : Redirs ts rs) (args : Args us ws ss) (few : ws.length ≤ 9)
    (consumes : tokens ps = ts ++ us ++ rest) (follows : Follows [124, 41, 38, 59] rest) :
    Returns .exec (fuel + 1) ps (wrap (.exec ws) (rs ++ ss)) rest := by
  have simple := redirs.not_block args follows
  rw [← consumes] at simple
  rw [← tokens_skip, append_assoc] at consumes
  have room := tokens_length (skip ps)
  rw [consumes, length_append] at room
  obtain ⟨files, ps₁, redirects, filed, after⟩ := redirs_complete redirs consumes
    (args.not_redirects follows) (Nat.lt_succ_of_le (le_trans (Nat.le_add_right _ _) room))
  have room' := tokens_length ps₁
  rw [after, length_append] at room'
  have small : 0 + ws.length < maxArgs := by
    change 0 + ws.length < 10
    omega
  obtain ⟨argv, more, ps₂, loops, words, filed', remains⟩ := args_complete args after follows small
    (Nat.lt_succ_of_le (le_trans (Nat.le_add_right _ _) room'))
  refine ⟨wrap (.exec argv) (files ++ more), ps₂, ?_, ?_, remains⟩
  · rw [parse, parseexec, peek_eq ps _ (by decide), simple]
    exact bind_ok.mpr ⟨_, redirects, bind_ok.mpr ⟨_, loops, rfl⟩⟩
  · rw [map_wrap, Cmd.map, words, map_append, filed, filed']

/-- `block`. -/
theorem nested_complete (opens : tokens ps = .op .lparen :: us)
    (inner : ∀ ps, tokens ps = .op .lparen :: us → Returns .block fuel ps c rest) :
    Returns .exec (fuel + 1) ps c rest := by
  obtain ⟨cmd, ps', runs, result, remains⟩ := inner (skip ps) ((tokens_skip ps).trans opens)
  refine ⟨cmd, ps', ?_, result, remains⟩
  rw [parse, parseexec, peek_eq ps _ (by decide), opens]
  exact runs

/-- `'(' line ')' redir*`. -/
theorem block_complete (opens : tokens ps = .op .lparen :: (ts ++ .op .rparen :: (us ++ rest)))
    (inner : ∀ ps, tokens ps = ts ++ .op .rparen :: (us ++ rest) →
      Returns .line fuel ps c (.op .rparen :: (us ++ rest))) (redirs : Redirs us rs)
    (stops : begins [60, 62] rest = false) : Returns .block (fuel + 1) ps (wrap c rs) rest := by
  obtain ⟨cmd, ps₁, runs, rfl, closes⟩ :=
    inner _ (gettoken_op ((tokens_skip ps).trans opens)).2
  have after := (gettoken_op ((tokens_skip ps₁).trans closes)).2
  have room := tokens_length (gettoken (skip ps₁)).ps
  rw [after, length_append] at room
  obtain ⟨files, ps₂, redirects, filed, remains⟩ := redirs_complete redirs after stops
    (Nat.lt_succ_of_le (le_trans (Nat.le_add_right _ _) room))
  refine ⟨wrap cmd files, ps₂, ?_, by rw [map_wrap, filed], remains⟩
  rw [parse, parseblock, peek_eq ps _ (by decide), opens]
  refine bind_ok.mpr ⟨_, runs, ?_⟩
  dsimp only
  rw [peek_eq ps₁ _ (by decide), closes]
  exact bind_ok.mpr ⟨_, redirects, rfl⟩

/-- A block begins with `(`. -/
theorem Derives.opens (derived : Derives .block ts c) : ∃ us, ts = .op .lparen :: us := by
  cases derived with
  | block inner redirs => exact ⟨_, rfl⟩

/-- Symbols `&` in front of what follows. -/
theorem Follows.amps (follows : Follows toks rest) (known : 38 ∈ toks) (n : Nat) :
    Follows toks (List.replicate n (.op .amp) ++ rest) := by
  cases n with
  | zero => exact follows
  | succ n => exact .of_op known _

/-- Every derivation, where nothing follows that could continue it. -/
theorem Derives.complete (derived : Derives x ts c) (ps : Ptr) (rest : List Token) (fuel : Nat)
    (consumes : tokens ps = ts ++ rest) (follows : Follows x.follow rest)
    (enough : 4 * ts.length + x.weight ≤ fuel) : Returns x fuel ps c rest := by
  have positive : 0 < x.weight := by cases x <;> decide
  induction derived generalizing ps rest fuel with
  | line first n ih =>
    cases fuel with
    | zero => omega
    | succ fuel =>
      rw [length_append] at enough
      rw [append_assoc] at consumes
      have pipes : Follows [41, 38, 59] rest := follows.mono (by decide)
      refine line_complete (ih ps _ fuel consumes (pipes.amps (by decide) n) ?_ (by decide)) follows
      simp only [weight] at enough ⊢
      omega
  | lines first n rest' ih ih' =>
    cases fuel with
    | zero => omega
    | succ fuel =>
      simp only [length_append, length_cons, weight] at enough
      simp only [append_assoc, cons_append] at consumes
      refine lines_complete (ih ps _ fuel consumes
        (Follows.amps (.of_op (by decide) _) (by decide) n) ?_ (by decide)) ?_
      all_goals grind [weight]
  | pipe first ih =>
    cases fuel with
    | zero => omega
    | succ fuel =>
      refine pipe_complete (ih ps rest fuel consumes (follows.mono (by decide)) ?_ (by decide))
        follows
      simp only [weight] at enough ⊢
      omega
  | pipes first rest' ih ih' =>
    cases fuel with
    | zero => omega
    | succ fuel =>
      simp only [length_append, length_cons, weight] at enough
      simp only [append_assoc, cons_append] at consumes
      refine pipes_complete (ih ps _ fuel consumes (.of_op (by decide) _) ?_ (by decide)) ?_
      all_goals grind [weight]
  | exec redirs args few =>
    cases fuel with
    | zero => omega
    | succ fuel => exact exec_complete redirs args few consumes follows
  | nested block ih =>
    cases fuel with
    | zero => omega
    | succ fuel =>
      obtain ⟨us, rfl⟩ := block.opens
      refine nested_complete consumes fun ps after => ih ps rest fuel after follows ?_ (by decide)
      simp only [weight] at enough ⊢
      omega
  | block inner redirs ih =>
    cases fuel with
    | zero => omega
    | succ fuel =>
      simp only [length_append, length_cons, weight] at enough
      simp only [append_assoc, cons_append] at consumes
      refine block_complete consumes ?_ redirs (follows.not_begins (by decide))
      intro ps after
      refine ih ps _ fuel after (.of_op (by decide) _) ?_ (by decide)
      simp only [weight]
      omega

end Complete

/-! ## The strings -/

section Strings

variable {n i j : Nat} {cmd : Cmd Word} {buf : List UInt8} {s : List UInt8} {w : Word}

theorem nulterminate_length (n : Nat) (cmd : Cmd Word) (buf : List UInt8) :
    (nulterminate n cmd buf).length = buf.length := by
  induction cmd generalizing buf with
  | exec argv =>
    rw [nulterminate]
    induction argv generalizing buf with
    | nil => rfl
    | cons w argv ih => rw [List.foldl_cons, ih, length_set]
  | redir cmd file mode fd ih => rw [nulterminate, length_set, ih]
  | pipe left right ihl ihr | list left right ihl ihr => rw [nulterminate, ihr, ihl]
  | back cmd ih => rw [nulterminate, ih]

/-- A byte that no word ends at stays. -/
theorem nulterminate_keeps (others : cmd.All fun w => n - w.eq.length ≠ i) :
    (nulterminate n cmd buf)[i]? = buf[i]? := by
  induction cmd generalizing buf with
  | exec argv =>
    rw [nulterminate]
    induction argv generalizing buf with
    | nil => rfl
    | cons w argv ih =>
      grind [Cmd.All]
  | redir cmd file mode fd ih => rw [nulterminate, List.getElem?_set_ne others.2, ih others.1]
  | pipe left right ihl ihr | list left right ihl ihr =>
    rw [nulterminate, ihr others.2, ihl others.1]
  | back cmd ih => rw [nulterminate, ih others]

theorem set_nul (j : Nat) (nul : buf[i]? = some 0) : (buf.set j 0)[i]? = some 0 := by
  by_cases same : j = i
  · rw [same, List.getElem?_set_self (List.getElem?_eq_some_iff.mp nul).1]
  · rw [List.getElem?_set_ne same, nul]

/-- A NUL stays. -/
theorem nulterminate_nul (nul : buf[i]? = some 0) : (nulterminate n cmd buf)[i]? = some 0 := by
  induction cmd generalizing buf with
  | exec argv =>
    rw [nulterminate]
    induction argv generalizing buf with
    | nil => exact nul
    | cons w argv ih => exact ih (set_nul _ nul)
  | redir cmd file mode fd ih => exact set_nul _ (ih nul)
  | pipe left right ihl ihr | list left right ihl ihr => exact ihr (ihl nul)
  | back cmd ih => exact ih nul

/-- There is a NUL where a word ends. -/
theorem nulterminate_ends (inside : n < buf.length) :
    cmd.All fun w => (nulterminate n cmd buf)[n - w.eq.length]? = some 0 := by
  have within (m : Nat) : n - m < buf.length := lt_of_le_of_lt (Nat.sub_le n m) inside
  induction cmd generalizing buf with
  | exec argv =>
    induction argv generalizing buf with
    | nil => exact fun _ member => absurd member (by simp)
    | cons w argv ih =>
      have set := List.getElem?_set_self (a := (0 : UInt8)) (within w.eq.length)
      intro v member
      rcases List.mem_cons.mp member with rfl | member
      · exact @nulterminate_nul n _ (.exec argv) _ set
      · refine ih ?_ ?_ v member
        · rwa [length_set]
        · simpa only [length_set] using within
  | redir cmd file mode fd ih =>
    refine ⟨(ih inside within).mono fun w nul => set_nul _ nul, ?_⟩
    refine List.getElem?_set_self ?_
    rw [nulterminate_length]
    exact within _
  | pipe left right ihl ihr | list left right ihl ihr =>
    refine ⟨(ihl inside within).mono fun w nul => @nulterminate_nul n _ right _ nul, ihr ?_ ?_⟩
    · rwa [nulterminate_length]
    · simpa only [nulterminate_length] using within
  | back cmd ih => exact ih inside within

/-- A string that ends with the first NUL behind it. -/
theorem string_eq {offset : Nat} {w : List UInt8} (chars : ∀ j < w.length, buf[offset + j]? = w[j]?)
    (noNul : 0 ∉ w) (ends : buf[offset + w.length]? = some 0) : string buf offset = w := by
  induction w generalizing offset with
  | nil =>
    grind [string, List.drop_eq_getElem_cons, List.takeWhile_cons_of_neg]
  | cons c w ih =>
    rw [List.mem_cons, not_or] at noNul
    have first := chars 0 (by simp)
    obtain ⟨inside, same⟩ := List.getElem?_eq_some_iff.mp first
    rw [Nat.add_zero] at inside
    simp only [Nat.add_zero] at same
    rw [string, List.drop_eq_getElem_cons inside, same,
      List.takeWhile_cons_of_pos (by simpa using Ne.symm noNul.1)]
    refine congrArg (c :: ·) (ih (fun j below => ?_) noNul.2 ?_)
    · have next := chars (j + 1) (by simpa using below)
      rw [Nat.add_right_comm, Nat.add_assoc]
      exact next
    · rw [Nat.add_right_comm, Nat.add_assoc]
      exact ends

/-- The characters of a word, in the input. -/
theorem Run.char (run : Run s w) (inside : j < w.text.length) :
    s[s.length - w.q.length + j]? = w.text[j]? := by
  obtain ⟨before, rfl⟩ := run.suffix
  have start : (before ++ w.q).length - w.q.length = before.length := by
    rw [length_append, Nat.add_sub_cancel]
  have split : w.text ++ w.q.dropWhile isWord = w.q := List.takeWhile_append_dropWhile
  grind [List.getElem?_append_left]

/-- The character that a word ends at is not one of words. -/
theorem Run.ends_char (run : Run s w) {c : UInt8} (here : s[s.length - w.eq.length]? = some c) :
    isWord c = false := by
  obtain ⟨before, rfl⟩ := (run.ends ▸ List.dropWhile_suffix _ : w.eq <:+ w.q).trans run.suffix
  have start : (before ++ w.eq).length - w.eq.length = before.length := by
    rw [length_append, Nat.add_sub_cancel]
  grind [List.head?_eq_getElem?, List.head?_dropWhile_not, cases Run]

/-- A word does not end inside another one. -/
theorem Run.apart {v : Word} (run : Run s w) (other : Run s v) (inside : j < w.text.length) :
    s.length - v.eq.length ≠ s.length - w.q.length + j := by
  intro same
  have char := run.char inside
  rw [List.getElem?_eq_getElem inside] at char
  have word : isWord w.text[j] = true := List.mem_takeWhile_imp (List.getElem_mem inside)
  rw [other.ends_char (same ▸ char)] at word
  contradiction

/-- A word of the tree, read when `parsecmd` returns. -/
theorem Run.string_eq (noNul : 0 ∉ s) (run : Run s w) (runs : cmd.All (Run s))
    (nul : (nulterminate s.length cmd (s ++ [0]))[s.length - w.eq.length]? = some 0) :
    string (nulterminate s.length cmd (s ++ [0])) (s.length - w.q.length) = w.text := by
  have within : w.text <+: w.q := List.takeWhile_prefix _
  have bound := run.suffix.length_le
  have length : w.text.length + w.eq.length = w.q.length := by
    rw [run.ends, Word.text, ← length_append, List.takeWhile_append_dropWhile]
  refine Sh.string_eq (fun j below => ?_) ?_ ?_
  · rw [nulterminate_keeps (runs.mono fun v other => run.apart other below),
      List.getElem?_append_left (by omega)]
    exact run.char below
  · exact fun member => noNul (run.suffix.subset (within.subset member))
  · have place : s.length - w.q.length + w.text.length = s.length - w.eq.length := by omega
    rw [place]
    exact nul

theorem map_congr {f g : α → β} {cmd : Cmd α} (same : cmd.All fun w => f w = g w) :
    cmd.map f = cmd.map g := by
  induction cmd with
  | exec argv => exact congrArg Cmd.exec (List.map_congr_left same)
  | redir cmd file mode fd ih => rw [Cmd.map, Cmd.map, ih same.1, same.2]
  | pipe left right ihl ihr | list left right ihl ihr =>
    rw [Cmd.map, Cmd.map, ihl same.1, ihr same.2]
  | back cmd ih => rw [Cmd.map, Cmd.map, ih same]

end Strings

/-- What `parsecmd` returns: the command that `parseline` has parsed, if nothing is left over. -/
theorem parsecmd_ok {s : List UInt8} (noNul : 0 ∉ s) {c : Cmd (List UInt8)} :
    parsecmd s = .ok c ↔ ∃ cmd ps, parse .line (4 * s.length + 4) s = .ok (cmd, ps) ∧
      tokens ps = [] ∧ cmd.map Word.text = c := by
  have read {cmd : Cmd Word} {ps : Ptr}
      (parses : parse .line (4 * s.length + 4) s = .ok (cmd, ps)) :
      (cmd.map fun w => string (nulterminate s.length cmd (s ++ [0])) (s.length - w.q.length)) =
        cmd.map Word.text := by
    have runs := (parse_sound .line _ parses).runs
    have ends := @nulterminate_ends s.length cmd (s ++ [0]) (by simp)
    exact map_congr ((runs.and ends).mono fun w both => both.1.string_eq noNul runs both.2)
  constructor
  · intro returns
    obtain ⟨⟨cmd, ps⟩, parses, returns⟩ := bind_ok.mp returns
    dsimp only at returns
    rw [peek_eq ps [] (by simp)] at returns
    by_cases left : skip ps = []
    · rw [if_neg (not_not.mpr left)] at returns
      refine ⟨cmd, ps, parses, ?_, ?_⟩
      · rw [← tokens_skip, left, tokens]
      · rw [← read parses]
        exact Except.ok.inj returns
    · rw [if_pos left] at returns
      cases returns
  · rintro ⟨cmd, ps, parses, none, rfl⟩
    have left := skip_of_tokens none
    rw [parsecmd, show parseline (4 * s.length + 4) s = .ok (cmd, ps) from parses, ← read parses]
    change (if (peek ps []).1 ≠ [] then _ else _) = _
    rw [peek_eq ps [] (by simp), if_neg (not_not.mpr left)]

/-- `parsecmd` terminates, and it returns a command just if the grammar derives the tokens of the
input with this command. -/
theorem parsecmd_iff (s : List UInt8) (noNul : 0 ∉ s) :
    parsecmd s ≠ .error .fuel ∧
      ∀ c, parsecmd s = .ok c ↔ Derives .line (tokens s) c := by
  have length := tokens_length s
  have enough : 4 * (tokens s).length + Symbol.line.weight ≤ 4 * s.length + 4 := by
    simp only [weight]
    omega
  constructor
  · rw [parsecmd]
    refine bind_fuel (parse_fuel .line _ enough) ?_
    rintro ⟨cmd, ps⟩ -
    dsimp only
    split <;> simp
  · intro c
    rw [parsecmd_ok noNul]
    constructor
    · rintro ⟨cmd, ps, parses, none, rfl⟩
      obtain ⟨ts, derived, consumed⟩ := (parse_sound .line (4 * s.length + 4) parses).derived
      rw [none, List.append_nil] at consumed
      rwa [consumed]
    · intro derived
      obtain ⟨cmd, ps, parses, result, none⟩ := derived.complete s [] (4 * s.length + 4)
        (List.append_nil _).symm (.inl rfl) enough
      exact ⟨cmd, ps, parses, none, result⟩

/-- `a > b`. -/
theorem parsecmd_iff_redirection :
    (0 : UInt8) ∉ [97, 32, 62, 32, 98] ∧
      parsecmd [97, 32, 62, 32, 98] = .ok (.redir (.exec [[97]]) [98] 513 1) ∧
      Derives .line (tokens [97, 32, 62, 32, 98]) (.redir (.exec [[97]]) [98] 513 1) := by
  have parses : parsecmd [97, 32, 62, 32, 98] = .ok (.redir (.exec [[97]]) [98] 513 1) := by
    decide +kernel
  exact ⟨by decide, parses, ((parsecmd_iff _ (by decide)).2 _).mp parses⟩

end Xv6.Sh
