import Mathlib.Logic.Function.Basic
import Xv6.Lib.Run
import Xv6.Param

/-!
# Console input

`consoleintr` and `consoleread` of `console.c`, for any number of processes that read. Both hold
`cons.lock` around what they do with `input`, so one turn of a loop is a step. What they print
(the echo, and the process listing of control-P) is left out, and so is the lock of the inode,
which `consoleread` gives back before it takes `cons.lock`.
-/

namespace Xv6.Console

open Function

/-- `INPUT_BUF`. -/
def inputBuf : Nat := 128

/-- A value of type `uint`. -/
def uint (n : Nat) : Nat := n % 2 ^ 32

/-- `a - b` of type `uint`. -/
def diff (a b : Nat) : Nat := (a + 2 ^ 32 - b) % 2 ^ 32

/-- `C(x)`: control-x. -/
def ctrl (x : Char) : UInt8 := x.toUInt8 - '@'.toUInt8

/-- `'\n'`. -/
def newline : UInt8 := 10

/-- `'\r'`. -/
def carriage : UInt8 := 13

/-- `'\x7f'`. -/
def delete : UInt8 := 0x7f

/-- `input`. -/
structure Input where
  buf : Nat → UInt8
  /-- Read index. -/
  r : Nat
  /-- Write index. -/
  w : Nat
  /-- Edit index. -/
  e : Nat

/-- The characters that edit the line. -/
def Editing (c : UInt8) : Prop := c = ctrl 'U' ∨ c = ctrl 'H' ∨ c = delete

namespace Input

/-- The loop of control-U; `fuel` bounds the number of turns. -/
def killLine : Nat → Input → Input
  | 0, input => input
  | fuel + 1, input =>
    if input.e ≠ input.w ∧ input.buf (diff input.e 1 % inputBuf) ≠ newline then
      killLine fuel { input with e := diff input.e 1 }
    else input

/-- The `default` case of the `switch`. The second component tells whether readers are woken. -/
def store (input : Input) (typed : UInt8) : Input × Bool :=
  if typed ≠ 0 ∧ diff input.e input.r < inputBuf then
    let c := if typed = carriage then newline else typed
    let later : Input :=
      { input with
        buf := update input.buf (input.e % inputBuf) c
        e := uint (input.e + 1) }
    if c = newline ∨ c = ctrl 'D' ∨ later.e = uint (later.r + inputBuf) then
      ({ later with w := later.e }, true)
    else (later, false)
  else (input, false)

/-- One turn of the loop of `consoleintr`. -/
def type (input : Input) (c : UInt8) : Input × Bool :=
  if c = ctrl 'P' then (input, false)
  else if c = ctrl 'U' then (input.killLine (diff input.e input.w), false)
  else if c = ctrl 'H' ∨ c = delete then
    if input.e ≠ input.w then ({ input with e := diff input.e 1 }, false) else (input, false)
  else input.store c

end Input

/-- Where a reader stands. `target` is what it asked for and `n` what is still to be read. -/
inductive Pc where
  /-- In no call. -/
  | outside
  /-- About to `acquire(&cons.lock)`, at the start or at the end of `sleep`. -/
  | enter (target n : Nat)
  /-- At the loop. -/
  | loop (target n : Nat)
  /-- In `sleep(&input.r, &cons.lock)`. -/
  | asleep (target n : Nat)
  deriving DecidableEq

/-- Who holds `cons.lock`. -/
inductive Holder where
  | interrupt
  | reader (p : Nat)
  deriving DecidableEq

/-- What happens at the console. -/
inductive Entry where
  /-- `consoleintr` handles a character. -/
  | typed (c : UInt8)
  /-- A character is stored at the `dst` of a reader. -/
  | delivered (p : Nat) (c : UInt8)
  /-- A read of `target` bytes returns. -/
  | returned (p target : Nat) (value : Int)
  deriving DecidableEq

/-- `input`, the processes that read, and the log of what happened, which no code looks at. -/
structure State where
  input : Input
  lock : Option Holder
  pc : Nat → Pc
  killed : Nat → Bool
  log : List Entry

namespace State

/-- `wakeup(&input.r)`. -/
def wakeup (s : State) : State :=
  { s with
    pc := fun p =>
      match s.pc p with
      | .asleep target n => .enter target n
      | other => other }

/-- Reader `p` goes to another place. -/
def goto (s : State) (p : Nat) (pc : Pc) : State :=
  { s with pc := update s.pc p pc }

/-- `release(&cons.lock)` and the return of a read. -/
def finish (s : State) (p target : Nat) (value : Int) : State :=
  { s.goto p .outside with lock := none, log := s.log ++ [.returned p target value] }

/-- Reader `p` takes the character at the read index. -/
def take (s : State) (p target n : Nat) : State :=
  let c := s.input.buf (s.input.r % inputBuf)
  let r := uint (s.input.r + 1)
  if c = ctrl 'D' then
    -- a control-D behind other characters is kept for the next read
    let r := if n < target then diff r 1 else r
    finish { s with input := { s.input with r := r } } p target (target - n)
  else
    let s : State :=
      { s with input := { s.input with r := r }, log := s.log ++ [.delivered p c] }
    if c = newline then s.finish p target (target - (n - 1 : Nat))
    else s.goto p (.loop target (n - 1))

/-- One step of reader `p`. -/
def next (s : State) (p : Nat) : Option State :=
  match s.pc p with
  | .outside => none
  | .asleep _ _ => none
  | .enter target n =>
    if s.lock = none then some { s.goto p (.loop target n) with lock := some (.reader p) }
    else none
  | .loop target n =>
    if n = 0 then some (s.finish p target target)
    else if s.input.r = s.input.w then
      if s.killed p then some (s.finish p target (-1))
      else some { s.goto p (.asleep target n) with lock := none }
    else some (s.take p target n)

end State

/-- What a run consists of. -/
inductive Event where
  /-- `consoleintr` begins. -/
  | interrupt
  /-- `getc` returns a character. -/
  | getc (c : UInt8)
  /-- `getc` returns a negative value: `consoleintr` ends. -/
  | done
  /-- A process calls `consoleread`. -/
  | read (p n : Nat)
  /-- A reader goes on. -/
  | next (p : Nat)
  /-- A process is killed. -/
  | kill (p : Nat)
  deriving DecidableEq

/-- One step of the system. -/
def step (s : State) : Event → Option State
  | .interrupt => if s.lock = none then some { s with lock := some .interrupt } else none
  | .getc c =>
    if s.lock = some .interrupt then
      let (input, woken) := s.input.type c
      let s := { s with input := input, log := s.log ++ [.typed c] }
      some (if woken then s.wakeup else s)
    else none
  | .done => if s.lock = some .interrupt then some { s with lock := none } else none
  | .read p n => if s.pc p = .outside then some (s.goto p (.enter n n)) else none
  | .next p => s.next p
  | .kill p =>
    let s := { s with killed := update s.killed p true }
    match s.pc p with
    | .asleep target n => some (s.goto p (.enter target n))
    | _ => some s

/-- Before anything is typed or read. -/
def boot : State where
  input := ⟨fun _ => 0, 0, 0, 0⟩
  lock := none
  pc _ := .outside
  killed _ := false
  log := []

end Xv6.Console
