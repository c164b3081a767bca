import Mathlib.Logic.Function.Basic
import Xv6.Param

/-!
# Disk blocks and the words stored in them

A block is its bytes by offset; only offsets below `bSize` are ever read or written. The log
header and the indirect blocks overlay an array of four-byte little-endian words on a block;
the two laws of that overlay, reading a stored word and reading any other word, are all the
later modules use of it.
-/

namespace Xv6

open List

/-- The bytes of a disk block by offset. -/
abbrev Block := Nat → UInt8

namespace Block

/-- The block `memset` to zero. -/
def zero : Block := fun _ => 0

/-- `((uint*)data)[index]` — a little-endian four-byte word. -/
def word (block : Block) (index : Nat) : Nat :=
  (block (4 * index)).toNat + 256 * (block (4 * index + 1)).toNat +
    65536 * (block (4 * index + 2)).toNat + 16777216 * (block (4 * index + 3)).toNat

/-- `((uint*)data)[index] = value`. -/
def setWord (block : Block) (index value : Nat) : Block := fun offset =>
  if offset / 4 = index then UInt8.ofNat (value / 256 ^ (offset % 4)) else block offset

/-- `memmove(data + start, bytes, n)` of a list of bytes. -/
def store (block : Block) (start : Nat) (bytes : List UInt8) : Block := fun offset =>
  if start ≤ offset then bytes.getD (offset - start) (block offset) else block offset

theorem store_apply (block : Block) (start : Nat) (bytes : List UInt8) (offset : Nat) :
    block.store start bytes offset =
      if start ≤ offset ∧ offset < start + bytes.length then bytes.getD (offset - start) 0
      else block offset := by
  unfold store
  by_cases lower : start ≤ offset
  · by_cases upper : offset < start + bytes.length
    · have inside : offset - start < bytes.length := by omega
      simp [lower, upper, getD_eq_getElem?_getD, getElem?_eq_getElem inside]
    · have outside : bytes.length ≤ offset - start := by omega
      simp [lower, upper, getD_eq_getElem?_getD, getElem?_eq_none outside]
  · simp [lower]

@[simp] theorem word_zero (index : Nat) : zero.word index = 0 := rfl

/-- Byte `lane` of a stored word. -/
theorem setWord_lane (block : Block) (index value lane : Nat) (inside : lane < 4) :
    (block.setWord index value (4 * index + lane)).toNat = value / 256 ^ lane % 256 := by
  have quotient : (4 * index + lane) / 4 = index := by omega
  have remainder : (4 * index + lane) % 4 = lane := by omega
  simp [setWord, quotient, remainder]

/-- Reading a stored 32-bit word returns it. -/
theorem word_setWord_self (block : Block) (index value : Nat) (bound : value < 2 ^ 32) :
    (block.setWord index value).word index = value := by
  have first := setWord_lane block index value 0 (by omega)
  grind [setWord_lane, word]

/-- Storing a word leaves every other word. -/
theorem word_setWord_of_ne (block : Block) {index other : Nat} (value : Nat)
    (different : other ≠ index) : (block.setWord index value).word other = block.word other := by
  grind [word, setWord]

/-- The value of a word read as a loop bound of type `int`: a negative one runs no iteration. -/
def count (word : Nat) : Nat := if word < 2 ^ 31 then word else 0

end Block

end Xv6
