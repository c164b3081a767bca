import Xv6.Fs.Bytes

/-!
# Names in directory entries

An entry has `dirSiz` bytes for a name, without a final zero if the name is that long. Two names
are the same to `namecmp` if they are stored as the same bytes.
-/

namespace Xv6.Fs

open Function Lib List

/-- The bytes that stand for a name in an entry: no more than `dirSiz`, up to a zero, and filled up
with zeros. -/
def nameKey (name : List UInt8) : List UInt8 := strncpy name dirSiz

/-- `strncpy`, a byte at a time. -/
theorem strncpy_succ (t : List UInt8) (n : Nat) :
    strncpy t (n + 1) =
      if t.headD 0 = 0 then replicate (n + 1) 0 else t.headD 0 :: strncpy t.tail n := by
  cases t with
  | nil => simp [strncpy]
  | cons c t =>
    by_cases zero : c = 0
    · simp [strncpy, zero]
    · simp [strncpy, zero]

/-- `strncmp` and `strncpy` look at the same bytes of a string. -/
theorem strncmp_eq_zero_iff (p q : List UInt8) (n : Nat) :
    strncmp p q n = 0 ↔ strncpy p n = strncpy q n := by
  induction n generalizing p q with
  | zero => simp [strncmp, strncpy]
  | succ n ih =>
    grind [strncmp, strncpy_succ, UInt8.toNat_inj]

/-- `namecmp` compares the bytes that are stored. -/
theorem namecmp_eq_zero_iff (a b : List UInt8) : namecmp a b = 0 ↔ nameKey a = nameKey b :=
  strncmp_eq_zero_iff a b dirSiz

/-- A name that was read from an entry is stored as it was. -/
theorem strncpy_strncpy (t : List UInt8) (n : Nat) : strncpy (strncpy t n) n = strncpy t n := by
  induction n generalizing t with
  | zero => simp [strncpy]
  | succ n ih =>
    grind [strncpy_succ]

/-- What is stored of a name, without the zeros behind it. -/
theorem takeWhile_strncpy {t : List UInt8} (plain : 0 ∉ t) (n : Nat) :
    (strncpy t n).takeWhile (· ≠ 0) = t.take n := by
  induction n generalizing t with
  | zero => simp [strncpy]
  | succ n ih =>
    rw [strncpy_succ]
    cases t with
    | nil => simp [List.replicate_succ]
    | cons c rest =>
      grind [takeWhile_cons]

/-- Names without a zero are the same if their first bytes are. -/
theorem nameKey_eq_iff {a b : List UInt8} (plainA : 0 ∉ a) (plainB : 0 ∉ b) :
    nameKey a = nameKey b ↔ a.take dirSiz = b.take dirSiz := by
  grind [nameKey, takeWhile_strncpy, strncpy]

/-- The bytes of an entry stand for themselves. -/
theorem nameKey_nameKey (name : List UInt8) : nameKey (nameKey name) = nameKey name :=
  strncpy_strncpy name dirSiz

/-- A free entry is found within the directory. -/
theorem freeIndex_lt {ents : List Dirent} (free : ∃ e ∈ ents, e.inum = 0) :
    freeIndex ents < ents.length := by
  obtain ⟨e, member, zero⟩ := free
  unfold freeIndex
  cases first : ents.findIdx? fun e => e.inum == 0 with
  | none =>
    have missed := findIdx?_eq_none_iff.mp first e member
    rw [zero] at missed
    contradiction
  | some k => exact (findIdx?_eq_some_iff_getElem.mp first).1

end Xv6.Fs
