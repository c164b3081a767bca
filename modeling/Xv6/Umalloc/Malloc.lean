import Xv6.Vm.Space

/-!
# The allocator of `umalloc.c`

Headers are found by their addresses; `size` counts units of a header's eight bytes. Pointers and
sizes are machine words. The loops take fuel, more than there are bytes below the break; running
out of it is the result `none`. Of `sbrk` what it returns and the new break are modelled: it grows
the process if the system grants the memory and the process stays below `KERNBASE`.
-/

namespace Xv6.Umalloc

open Vm (kernbase uintSize)

/-- `union header`. -/
structure Header where
  ptr : Nat
  size : Nat
  deriving DecidableEq

/-- Where the program has `base`, and its break when it starts. -/
structure Program where
  base : Nat
  start : Nat
  base_ne_null : 0 < base
  base_below : base + 8 ≤ start
  start_below : start < kernbase

/-- The headers in memory, `freep`, and the break of the process. -/
structure Heap where
  mem : Nat → Header
  freep : Nat
  brk : Nat

namespace Heap

/-- The header at an address is written. -/
def write (s : Heap) (p : Nat) (h : Header) : Heap := { s with mem := Function.update s.mem p h }

end Heap

/-- `p + n` for a header pointer. -/
def advance (p n : Nat) : Nat := (p + 8 * n) % uintSize

/-- The loop of `free` ends at `p`, with `next` for `p->s.ptr`. -/
def ends (bp p next : Nat) : Bool :=
  (p < bp && bp < next) || (next ≤ p && (p < bp || bp < next))

/-- The loop of `free`: the block of the list that `bp` goes behind. -/
def place (s : Heap) (bp : Nat) : Nat → Nat → Option Nat
  | 0, _ => none
  | fuel + 1, p =>
    if ends bp p (s.mem p).ptr then some p else place s bp fuel (s.mem p).ptr

/-- `free` joins `bp` to the block behind it, or links it to that block. -/
def joinNext (s : Heap) (p bp : Nat) : Heap :=
  let next := (s.mem p).ptr
  if advance bp (s.mem bp).size = next then
    s.write bp ⟨(s.mem next).ptr, ((s.mem bp).size + (s.mem next).size) % uintSize⟩
  else s.write bp { s.mem bp with ptr := next }

/-- `free` joins `bp` to the block before it, or links that block to `bp`. -/
def joinPrev (s : Heap) (p bp : Nat) : Heap :=
  if advance p (s.mem p).size = bp then
    s.write p ⟨(s.mem bp).ptr, ((s.mem p).size + (s.mem bp).size) % uintSize⟩
  else s.write p { s.mem p with ptr := bp }

/-- `free`. -/
def free (s : Heap) (ap : Nat) : Option Heap := do
  let bp := (ap + (uintSize - 8)) % uintSize
  let p ← place s bp (s.brk + 1) s.freep
  some { joinPrev (joinNext s p bp) p bp with freep := p }

/-- The size of the process after `growproc` with a machine word, or nothing for −1. A word from
2³¹ on is a negative number. -/
def growproc (sz n : Nat) (granted : Bool) : Option Nat :=
  if n = 0 then some sz
  else if n < 2 ^ 31 then
    -- `allocuvm`
    if (sz + n) % uintSize < kernbase ∧ granted then some ((sz + n) % uintSize) else none
  else
    -- `deallocuvm`, whose result 0 is taken for a failure
    let sz := min sz ((sz + n) % uintSize)
    if sz = 0 then none else some sz

/-- `sbrk`: the old break, or nothing for −1. -/
def sbrk (s : Heap) (n : Nat) (granted : Bool) : Option Nat × Heap :=
  match growproc s.brk n granted with
  | none => (none, s)
  | some sz => (some s.brk, { s with brk := sz })

/-- `morecore`. -/
def morecore (s : Heap) (nu : Nat) (granted : Bool) : Option (Nat × Heap) :=
  let nu := if nu < 4096 then 4096 else nu
  match sbrk s (nu * 8 % uintSize) granted with
  | (none, s) => some (0, s)
  | (some hp, s) => do
    let s ← free (s.write hp { s.mem hp with size := nu }) (advance hp 1)
    some (s.freep, s)

/-- `malloc` takes the block `p` behind `prevp`, or the last units of it. -/
def carve (s : Heap) (nunits prevp p : Nat) : Nat × Heap :=
  if (s.mem p).size = nunits then
    (advance p 1, { s.write prevp { s.mem prevp with ptr := (s.mem p).ptr } with freep := prevp })
  else
    let s := s.write p { s.mem p with size := (s.mem p).size - nunits }
    let tail := advance p (s.mem p).size
    (advance tail 1, { s.write tail { s.mem tail with size := nunits } with freep := prevp })

/-- The loop of `malloc`. Each call of `sbrk` takes one of the answers, none is a refusal. -/
def search (nunits : Nat) : Nat → List Bool → Nat → Nat → Heap → Option (Nat × Heap)
  | 0, _, _, _, _ => none
  | fuel + 1, grants, prevp, p, s =>
    if nunits ≤ (s.mem p).size then some (carve s nunits prevp p)
    else if p = s.freep then do
      let (p, s) ← morecore s nunits (grants.headD false)
      if p = 0 then some (0, s) else search nunits fuel grants.tail p (s.mem p).ptr s
    else search nunits fuel grants p (s.mem p).ptr s

/-- The units for a request: its bytes and a header. -/
def units (nbytes : Nat) : Nat := (nbytes + 7) % uintSize / 8 + 1

/-- The bytes behind the header of a block for a request. -/
def room (nbytes : Nat) : Nat := 8 * (units nbytes - 1)

/-- The list of the first call: `base` alone. -/
def prepare (program : Program) (s : Heap) : Heap :=
  if s.freep = 0 then { s.write program.base ⟨program.base, 0⟩ with freep := program.base } else s

/-- `malloc`. -/
def malloc (program : Program) (s : Heap) (nbytes : Nat) (grants : List Bool) :
    Option (Nat × Heap) :=
  let s := prepare program s
  search (units nbytes) (2 * s.brk + 3) grants s.freep (s.mem s.freep).ptr s

/-! ## Programs that use it -/

/-- A pointer that `malloc` has returned, with the request. -/
structure Block where
  ptr : Nat
  bytes : Nat
  deriving DecidableEq

/-- Where the header of a block is. -/
def Block.header (b : Block) : Nat := b.ptr - 8

/-- The heap, and the pointers that are not freed yet. -/
structure State where
  heap : Heap
  live : List Block

inductive Event where
  /-- `malloc(nbytes)`, with the answers of the system. -/
  | malloc (nbytes : Nat) (grants : List Bool)
  /-- `free(ap)`. -/
  | free (ap : Nat)
  /-- The program stores something at an address. -/
  | store (address : Nat) (h : Header)

/-- What the program may do: requests below 2²⁸ bytes, `free` of live pointers, stores inside of
live blocks. -/
def Allowed (s : State) : Event → Prop
  | .malloc nbytes _ => nbytes < 2 ^ 28
  | .free ap => ∃ b ∈ s.live, b.ptr = ap
  | .store address _ =>
    ∃ b ∈ s.live, b.ptr ≤ address ∧ address + 8 ≤ b.header + 8 * (s.heap.mem b.header).size

instance (s : State) : (e : Event) → Decidable (Allowed s e)
  | .malloc nbytes _ => inferInstanceAs (Decidable (nbytes < 2 ^ 28))
  | .free ap => inferInstanceAs (Decidable (∃ b ∈ s.live, b.ptr = ap))
  | .store address _ => inferInstanceAs (Decidable (∃ b ∈ s.live, b.ptr ≤ address ∧
      address + 8 ≤ b.header + 8 * (s.heap.mem b.header).size))

/-- What the program may do without a request that `malloc` serves wrongly. -/
def Modest (s : State) : Event → Prop
  | .malloc nbytes _ => nbytes ≤ 2 ^ 31 - 16
  | .free ap => Allowed s (.free ap)
  | .store address h => Allowed s (.store address h)

theorem Allowed.modest {s : State} {e : Event} (allowed : Allowed s e) : Modest s e := by
  cases e with
  | malloc nbytes grants => exact Nat.le_of_lt (Nat.lt_of_lt_of_le allowed (by decide))
  | free ap => exact allowed
  | store address h => exact allowed

/-- One event; nothing if the call does not return. -/
def step (program : Program) (s : State) : Event → Option State
  | .malloc nbytes grants => do
    let (p, heap) ← malloc program s.heap nbytes grants
    some ⟨heap, if p = 0 then s.live else ⟨p, nbytes⟩ :: s.live⟩
  | .free ap => do
    let heap ← free s.heap ap
    some ⟨heap, s.live.eraseP (·.ptr = ap)⟩
  | .store address h => some { s with heap := s.heap.write address h }

/-- The program starts: nothing is allocated, memory holds anything. -/
def initial (program : Program) (mem : Nat → Header) : State := ⟨⟨mem, 0, program.start⟩, []⟩

end Xv6.Umalloc
