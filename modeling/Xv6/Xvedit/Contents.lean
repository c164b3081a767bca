import Xv6.Lib.Run
import Xv6.Xvedit.File

/-!
# The list of lines of `xvedit`

`struct List` with the nodes it points to, and the functions of `xvedit.c` that load and change
it. Pointers are addresses, 0 is the null pointer. `malloc` returns any address that is not
allocated, with whatever was in that memory; what is freed keeps its content until then. There is
no step where the code reads through a null pointer or frees memory that is not allocated, and
loops over a list that has no end need more fuel than there is. A block of `malloc` is taken to be
as large as the `next` field needs, which the rounding of `umalloc.c` provides also where `end`,
`add` and `edit` ask for the size of a pointer.
-/

namespace Xv6.Xvedit

open Function Lib

/-- `struct Node`; nothing reads `prev`. -/
structure Node where
  line : List UInt8
  next : Nat
  deriving DecidableEq

/-- `struct List` and the memory of the nodes. -/
structure Contents where
  mem : Nat → Node
  /-- The nodes that are allocated. -/
  live : List Nat
  head : Nat
  end_ : Nat
  count : Int
  changes : Int

/-- `n++` on an `int`. -/
def incr (n : Int) : Int := (n + 1).bmod (2 ^ 32)

/-- The node that a `malloc` returns, with the content of its `next`. -/
structure Cell where
  addr : Nat
  next : Nat
  deriving DecidableEq

namespace Contents

/-- `malloc` of a node, and its line. -/
def malloc (s : Contents) (cell : Cell) (line : List UInt8) : Option Contents :=
  if cell.addr ≠ 0 ∧ cell.addr ∉ s.live then
    some { s with
      mem := update s.mem cell.addr ⟨line, cell.next⟩
      live := cell.addr :: s.live }
  else none

/-- `free`. -/
def free (s : Contents) (p : Nat) : Option Contents :=
  if p ∈ s.live then some { s with live := s.live.erase p } else none

/-- `p->next = next`. -/
def setNext (s : Contents) (p next : Nat) : Option Contents :=
  if p ≠ 0 then some { s with mem := update s.mem p { s.mem p with next := next } }
  else none

/-- `p->next`. -/
def next (s : Contents) (p : Nat) : Option Nat := if p ≠ 0 then some (s.mem p).next else none

/-- The second loop of `read_file`: `prev` is the node that `prev_line` points into. -/
def loadLoop : Contents → Option Nat → List (List UInt8) → List Cell → Option Contents
  | s, _, [], [] => some s
  | s, prev, line :: lines, cell :: cells => do
    let s ← s.malloc cell line
    let s := { s with end_ := cell.addr, count := s.count + 1 }
    let s ← match prev with
      | none => some { s with head := cell.addr }
      | some p => s.setNext p cell.addr
    loadLoop s (some cell.addr) lines cells
  | _, _, _, _ => none

/-- `read_file`; the cells are what its calls of `malloc` return for the nodes. -/
def readFile (s : Contents) (memory : Memory) (file : List UInt8) (cells : List Cell) :
    Option Contents := do
  let lines ← readLines memory file
  loadLoop { s with count := 0, changes := 0 } none lines cells

/-- The loop of `save_file`: the lines that are written. -/
def lines : Nat → Contents → Nat → Option (List (List UInt8))
  | 0, _, _ => none
  | fuel + 1, s, ln =>
    if ln = 0 then some []
    else (lines fuel s (s.mem ln).next).map ((s.mem ln).line :: ·)

/-- `save_file` to a file that does not exist: what the file holds afterwards. -/
def saveFile (s : Contents) (fuel : Nat) : Option (List UInt8) :=
  (s.lines fuel s.head).map writeLines

/-- `append`. -/
def append (s : Contents) (ln : Nat) : Option Contents := do
  let s ← s.setNext s.end_ ln
  let s ← { s with end_ := ln }.setNext ln 0
  some { s with count := s.count + 1 }

/-- `end`. -/
def appendLine (s : Contents) (text : List UInt8) (cell : Cell) : Option Contents := do
  let s ← s.malloc cell text
  let s ← s.append cell.addr
  some { s with changes := incr s.changes }

/-- The loop of `add`. -/
def addLoop (num : Int) (newLine : Nat) : Nat → Contents → Nat → Nat → Option Contents
  | 0, _, _, _ => none
  | fuel + 1, s, ln, i =>
    if ln = 0 then some s
    else if i + 1 = num then do
      let s ← s.setNext newLine (s.mem ln).next
      let s ← s.setNext ln newLine
      some { s with count := s.count + 1 }
    else addLoop num newLine fuel s (s.mem ln).next (i + 1)

/-- `add`. -/
def add (s : Contents) (text : List UInt8) (num : Int) (cell : Cell) (fuel : Nat) :
    Option Contents := do
  let s ← s.malloc cell text
  let s := { s with changes := incr s.changes }
  addLoop num cell.addr fuel s s.head 1

/-- The loop of `edit`. -/
def editLoop (num : Int) (text : List UInt8) : Nat → Contents → Nat → Nat → Option Contents
  | 0, _, _, _ => none
  | fuel + 1, s, ln, i =>
    if ln = 0 then some { s with changes := incr s.changes }
    else if i = num then
      some { s with mem := update s.mem ln { s.mem ln with line := text } }
    else editLoop num text fuel s (s.mem ln).next (i + 1)

/-- `edit`; the node it allocates is not used. -/
def edit (s : Contents) (text : List UInt8) (num : Int) (cell : Cell) (fuel : Nat) :
    Option Contents := do
  let s ← s.malloc cell text
  editLoop num text fuel s s.head 1

/-- The inner loop of `drop` without an end: `temp1` and what follows it are freed. -/
def dropRest : Nat → Contents → Nat → Option Contents
  | 0, _, _ => none
  | fuel + 1, s, temp1 => do
    let after ← s.next temp1
    if after ≠ 0 then
      let s ← s.free temp1
      dropRest fuel { s with count := s.count - 1 } after
    else s.free temp1

/-- The inner loop of `drop` with both ends: so many nodes are freed, from `temp1` on. -/
def dropNodes : Nat → Contents → Nat → Option (Contents × Nat)
  | 0, s, temp1 => some (s, temp1)
  | more + 1, s, temp1 => do
    let after ← s.next temp1
    let s ← s.free temp1
    dropNodes more { s with count := s.count - 1 } after

/-- The loop of `drop` over the nodes, at node `ln` with index `i`. -/
def dropLoop (start stop : Int) : Nat → Contents → Nat → Nat → Option Contents
  | 0, _, _, _ => none
  | fuel + 1, s, ln, i =>
    if (i : Int) < s.count then do
      let after ← s.next ln
      if stop = 0 ∧ start ≠ 0 ∧ i = start - 2 then
        let s ← s.setNext ln 0
        dropRest fuel s after
      else if stop ≠ 0 ∧ start = 0 ∧ i ≤ stop - 1 then
        let s ← { s with head := after, count := s.count - 1 }.free ln
        dropLoop start stop fuel s after (i + 1)
      else if stop = 0 ∧ start = 0 then dropLoop start stop fuel s after (i + 1)
      else if start - 2 ≤ i ∧ i ≤ stop ∧ start ≠ 0 ∧ stop ≠ 0 then
        let (s, temp1) ← dropNodes (stop - i).toNat s ln
        s.setNext ln temp1
      else dropLoop start stop fuel s after (i + 1)
    else some s

/-- `drop`, once it is confirmed. -/
def drop (s : Contents) (start stop : Int) (fuel : Nat) : Option Contents :=
  dropLoop start stop fuel { s with changes := incr s.changes } s.head 0

end Contents

/-- The commands that change the list, with what `atoi` and `convert_range` make of their
arguments. -/
inductive Command where
  | append (text : List UInt8) (cell : Cell)
  | add (text : List UInt8) (num : Int) (cell : Cell) (fuel : Nat)
  | edit (text : List UInt8) (num : Int) (cell : Cell) (fuel : Nat)
  | drop (start stop : Int) (fuel : Nat)

/-- One command. -/
def commandStep (s : Contents) : Command → Option Contents
  | .append text cell => s.appendLine text cell
  | .add text num cell fuel => s.add text num cell fuel
  | .edit text num cell fuel => s.edit text num cell fuel
  | .drop start stop fuel => s.drop start stop fuel

end Xv6.Xvedit
