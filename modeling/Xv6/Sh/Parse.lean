import Mathlib.Init

/-!
# The parser of `sh.c`

A `char *` into the input is the part of the input that it points to, up to the NUL at `es`; so
`s < es` says that it is not empty and `*s` is 0 if it is. The words of a tree are pairs of
pointers until `nulterminate` has put a NUL behind each of them. The functions that call each
other take fuel, as do the loops; running out of it is an outcome of its own. Memory for the tree
and the stack is not modelled.
-/

namespace Xv6.Sh

/-- A pointer into the input. -/
abbrev Ptr := List UInt8

/-- `whitespace`. -/
def whitespace : List UInt8 := [32, 9, 13, 10, 11]

/-- The symbols, and `>>`. -/
inductive Op where
  | lt
  | bar
  | gt
  | append
  | amp
  | semi
  | lparen
  | rparen
  deriving DecidableEq

/-- The first character of a symbol. -/
def Op.char : Op → UInt8
  | .lt => 60
  | .bar => 124
  | .gt => 62
  | .append => 62
  | .amp => 38
  | .semi => 59
  | .lparen => 40
  | .rparen => 41

/-- `symbols`. -/
def symbols : List UInt8 := [60, 124, 62, 38, 59, 40, 41]

/-- `strchr(whitespace, c)`. -/
def isSpace (c : UInt8) : Bool := whitespace.contains c

/-- `!strchr(whitespace, c) && !strchr(symbols, c)`. -/
def isWord (c : UInt8) : Bool := !whitespace.contains c && !symbols.contains c

/-- `while(s < es && strchr(whitespace, *s)) s++`. -/
def skip (s : Ptr) : Ptr := s.dropWhile isSpace

/-- What `gettoken` returns. -/
inductive Ret where
  /-- 0. -/
  | eof
  /-- The symbol, and `'+'` for `>>`. -/
  | op (o : Op)
  /-- `'a'`. -/
  | word
  deriving DecidableEq

/-- The symbols that are a case of their own in `gettoken`. -/
def single (c : UInt8) : Option Op :=
  if c = 124 then some .bar
  else if c = 40 then some .lparen
  else if c = 41 then some .rparen
  else if c = 59 then some .semi
  else if c = 38 then some .amp
  else if c = 60 then some .lt
  else none

/-- A word: the pointers to it and behind it. -/
structure Word where
  q : Ptr
  eq : Ptr

/-- The result of `gettoken` and what it stores through its arguments. -/
structure Got where
  ret : Ret
  q : Ptr
  eq : Ptr
  ps : Ptr

/-- What `q` and `eq` enclose. -/
def Got.word (got : Got) : Word := ⟨got.q, got.eq⟩

/-- `gettoken`. -/
def gettoken (ps : Ptr) : Got :=
  match skip ps with
  | [] => ⟨.eof, [], [], []⟩
  | c :: t =>
    match single c with
    | some o => ⟨.op o, c :: t, t, skip t⟩
    | none =>
      if c = 62 then
        if t.head? = some 62 then ⟨.op .append, c :: t, t.tail, skip t.tail⟩
        else ⟨.op .gt, c :: t, t, skip t⟩
      else
        let s := (c :: t).dropWhile isWord
        ⟨.word, c :: t, s, skip s⟩

/-- `peek`. -/
def peek (ps : Ptr) (toks : List UInt8) : Ptr × Bool :=
  match skip ps with
  | [] => ([], false)
  | c :: t => (c :: t, toks.contains c)

/-- `struct cmd`, with words of any kind. -/
inductive Cmd (α : Type) where
  | exec (argv : List α)
  | redir (cmd : Cmd α) (file : α) (mode fd : Nat)
  | pipe (left right : Cmd α)
  | list (left right : Cmd α)
  | back (cmd : Cmd α)
  deriving DecidableEq

/-- What a `redircmd` has besides its command. -/
structure Redir (α : Type) where
  file : α
  mode : Nat
  fd : Nat

/-- The commands that redirections make of one, the first innermost. -/
def wrap {α : Type} (cmd : Cmd α) (redirs : List (Redir α)) : Cmd α :=
  redirs.foldl (fun cmd r => .redir cmd r.file r.mode r.fd) cmd

/-- The panics of the parser, and the end of the fuel. -/
inductive Panic where
  /-- `"missing file for redirection"`. -/
  | missingFile
  /-- `"parseblock"`. -/
  | parseblock
  /-- `"syntax - missing )"`. -/
  | missingParen
  /-- `"syntax"`. -/
  | syntaxError
  /-- `"too many args"`. -/
  | tooManyArgs
  /-- Not in the source. -/
  | fuel
  deriving DecidableEq

/-- `O_RDONLY`. -/
def oRdonly : Nat := 0

/-- `O_WRONLY|O_CREATE`. -/
def oWronlyCreate : Nat := 0x001 ||| 0x200

/-- The `switch(tok)` of `parseredirs`: mode and descriptor. -/
def redirection : Ret → Option (Nat × Nat)
  | .op .lt => some (oRdonly, 0)
  | .op .gt => some (oWronlyCreate, 1)
  | .op .append => some (oWronlyCreate, 1)
  | _ => none

/-- The loop of `parseredirs`. It returns the redirections, for its caller to put around the
command: `parseexec` fills in its words while redirections point to it. -/
def parseredirs : Nat → Ptr → Except Panic (List (Redir Word) × Ptr)
  | 0, _ => .error .fuel
  | fuel + 1, ps =>
    let (ps, more) := peek ps [60, 62]
    if more then
      let tok := gettoken ps
      let file := gettoken tok.ps
      if file.ret ≠ .word then .error .missingFile
      else do
        let (rest, ps) ← parseredirs fuel file.ps
        match redirection tok.ret with
        | some (mode, fd) => .ok (⟨file.word, mode, fd⟩ :: rest, ps)
        | none => .ok (rest, ps)
    else .ok ([], ps)

/-- `MAXARGS`. -/
def maxArgs : Nat := 10

/-- The loop of `parseexec`: the words and the redirections among them. -/
def parseargs : Nat → Nat → Ptr → Except Panic (List Word × List (Redir Word) × Ptr)
  | 0, _, _ => .error .fuel
  | fuel + 1, argc, ps =>
    let (ps, stop) := peek ps [124, 41, 38, 59]
    if stop then .ok ([], [], ps)
    else
      let tok := gettoken ps
      if tok.ret = .eof then .ok ([], [], tok.ps)
      else if tok.ret ≠ .word then .error .syntaxError
      else if argc + 1 ≥ maxArgs then .error .tooManyArgs
      else do
        let (redirs, ps) ← parseredirs (tok.ps.length + 1) tok.ps
        let (argv, more, ps) ← parseargs fuel (argc + 1) ps
        .ok (tok.word :: argv, redirs ++ more, ps)

/-- The loop of `parseline`. -/
def parsebacks : Nat → Cmd Word → Ptr → Except Panic (Cmd Word × Ptr)
  | 0, _, _ => .error .fuel
  | fuel + 1, cmd, ps =>
    let (ps, more) := peek ps [38]
    if more then parsebacks fuel (.back cmd) (gettoken ps).ps
    else .ok (cmd, ps)

mutual

/-- `parseline`. -/
def parseline : Nat → Ptr → Except Panic (Cmd Word × Ptr)
  | 0, _ => .error .fuel
  | fuel + 1, ps => do
    let (cmd, ps) ← parsepipe fuel ps
    let (cmd, ps) ← parsebacks (ps.length + 1) cmd ps
    let (ps, more) := peek ps [59]
    if more then
      let (rest, ps) ← parseline fuel (gettoken ps).ps
      .ok (.list cmd rest, ps)
    else .ok (cmd, ps)

/-- `parsepipe`. -/
def parsepipe : Nat → Ptr → Except Panic (Cmd Word × Ptr)
  | 0, _ => .error .fuel
  | fuel + 1, ps => do
    let (cmd, ps) ← parseexec fuel ps
    let (ps, more) := peek ps [124]
    if more then
      let (rest, ps) ← parsepipe fuel (gettoken ps).ps
      .ok (.pipe cmd rest, ps)
    else .ok (cmd, ps)

/-- `parseexec`. -/
def parseexec : Nat → Ptr → Except Panic (Cmd Word × Ptr)
  | 0, _ => .error .fuel
  | fuel + 1, ps =>
    let (ps, block) := peek ps [40]
    if block then parseblock fuel ps
    else do
      let (redirs, ps) ← parseredirs (ps.length + 1) ps
      let (argv, more, ps) ← parseargs (ps.length + 1) 0 ps
      .ok (wrap (.exec argv) (redirs ++ more), ps)

/-- `parseblock`. -/
def parseblock : Nat → Ptr → Except Panic (Cmd Word × Ptr)
  | 0, _ => .error .fuel
  | fuel + 1, ps =>
    let (ps, block) := peek ps [40]
    if block then do
      let (cmd, ps) ← parseline fuel (gettoken ps).ps
      let (ps, closed) := peek ps [41]
      if closed then
        let (redirs, ps) ← parseredirs ((gettoken ps).ps.length + 1) (gettoken ps).ps
        .ok (wrap cmd redirs, ps)
      else .error .missingParen
    else .error .parseblock

end

/-- `nulterminate`, on a buffer whose string is `n` characters long: `*eq = 0` for every word. -/
def nulterminate (n : Nat) : Cmd Word → List UInt8 → List UInt8
  | .exec argv, buf => argv.foldl (fun buf w => buf.set (n - w.eq.length) 0) buf
  | .redir cmd file _ _, buf => (nulterminate n cmd buf).set (n - file.eq.length) 0
  | .pipe left right, buf => nulterminate n right (nulterminate n left buf)
  | .list left right, buf => nulterminate n right (nulterminate n left buf)
  | .back cmd, buf => nulterminate n cmd buf

/-- The tree with other words. -/
def Cmd.map {α β : Type} (f : α → β) : Cmd α → Cmd β
  | .exec argv => .exec (argv.map f)
  | .redir cmd file mode fd => .redir (cmd.map f) (f file) mode fd
  | .pipe left right => .pipe (left.map f) (right.map f)
  | .list left right => .list (left.map f) (right.map f)
  | .back cmd => .back (cmd.map f)

/-- The string at an offset of a buffer. -/
def string (buf : List UInt8) (offset : Nat) : List UInt8 := (buf.drop offset).takeWhile (· ≠ 0)

/-- `parsecmd`: the tree, with the strings that its pointers lead to when it returns. -/
def parsecmd (s : List UInt8) : Except Panic (Cmd (List UInt8)) := do
  let (cmd, ps) ← parseline (4 * s.length + 4) s
  let (ps, _) := peek ps []
  if ps ≠ [] then .error .syntaxError
  else
    let buf := nulterminate s.length cmd (s ++ [0])
    .ok (cmd.map fun w => string buf (s.length - w.q.length))

end Xv6.Sh
