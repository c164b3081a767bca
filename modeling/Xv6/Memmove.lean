import Mathlib.Logic.Function.Basic
import Xv6.Param

/-!
# `memmove`

The kernel copies downwards where the target begins inside the source, and so moves the bytes
wherever the two ranges lie. The user library always copies upwards: a target that begins inside
the source gets its first bytes again and again, so that the bytes have moved only if the source
repeats itself at the distance of the two ranges.
-/

namespace Xv6.Memmove

open Function

/-- Bytes by their addresses. -/
abbrev Bytes := Nat → UInt8

/-- `while(n-- > 0) *d++ = *s++`. -/
def copyUp (d s : Nat) : Nat → Bytes → Bytes
  | 0, m => m
  | n + 1, m => copyUp ((d + 1) % 2 ^ 32) ((s + 1) % 2 ^ 32) n (update m d (m s))

/-- `--p`. -/
def decr (p : Nat) : Nat := if p = 0 then 2 ^ 32 - 1 else p - 1

/-- `while(n-- > 0) *--d = *--s`. -/
def copyDown (d s : Nat) : Nat → Bytes → Bytes
  | 0, m => m
  | n + 1, m => copyDown (decr d) (decr s) n (update m (decr d) (m (decr s)))

/-- `memmove` of `string.c`. -/
def Kernel.memmove (dst src n : Nat) (m : Bytes) : Bytes :=
  if src < dst ∧ (src + n) % 2 ^ 32 > dst then
    copyDown ((dst + n) % 2 ^ 32) ((src + n) % 2 ^ 32) n m
  else copyUp dst src n m

/-- `memmove` of `ulib.c`. -/
def User.memmove (dst src : Nat) (n : Int) (m : Bytes) : Bytes := copyUp dst src n.toNat m

/-- The `n` bytes at `dst` are those that were at `src`, and no other byte has changed. -/
structure Moved (dst src n : Nat) (m r : Bytes) : Prop where
  moved : ∀ i < n, r (dst + i) = m (src + i)
  kept : ∀ a, a < dst ∨ dst + n ≤ a → r a = m a

/-- A target that begins inside the source finds there what stands in front of it. -/
def Repeats (dst src n : Nat) (m : Bytes) : Prop :=
  src < dst → ∀ i < n, dst ≤ src + i → m (src + i) = m (src + i - (dst - src))

variable {dst src n : Nat} {m r r' : Bytes}

/-- The bytes after a move are determined. -/
theorem Moved.unique (first : Moved dst src n m r) (second : Moved dst src n m r') : r = r' := by
  funext a
  by_cases inside : dst ≤ a ∧ a < dst + n
  · obtain ⟨i, rfl⟩ := Nat.exists_eq_add_of_le inside.1
    rw [first.moved i (by omega), second.moved i (by omega)]
  · rw [first.kept a (by omega), second.kept a (by omega)]

/-- Each byte is copied from its place in the source, or from the target where that place has been
overwritten before. -/
theorem copyUp_spec {d s : Nat} (target : d + n ≤ 2 ^ 32) (source : s + n ≤ 2 ^ 32) :
    (∀ a, a < d ∨ d + n ≤ a → copyUp d s n m a = m a) ∧
    ∀ i < n, copyUp d s n m (d + i) =
      if d ≤ s + i ∧ s < d then copyUp d s n m (s + i) else m (s + i) := by
  induction n generalizing d s m with
  | zero => exact ⟨fun _ _ => rfl, fun i less => absurd less (Nat.not_lt_zero i)⟩
  | succ n ih =>
    rw [copyUp]
    rcases Nat.eq_zero_or_pos n with rfl | more
    · -- the last byte, behind which the addresses may wrap around
      simp only [copyUp]
      refine ⟨fun a outside => update_of_ne (by omega) .., fun i less => ?_⟩
      obtain rfl : i = 0 := by omega
      simp only [add_zero]
      rw [update_self, if_neg (by omega)]
    · rw [Nat.mod_eq_of_lt (by omega : d + 1 < 2 ^ 32),
        Nat.mod_eq_of_lt (by omega : s + 1 < 2 ^ 32)]
      obtain ⟨kept, copied⟩ := @ih (update m d (m s)) (d + 1) (s + 1) (by omega) (by omega)
      have first := kept d (by omega)
      rw [update_self] at first
      refine ⟨fun a outside => ?_, fun i less => ?_⟩
      · rw [kept a (by omega), update_of_ne (by omega)]
      · rcases Nat.eq_zero_or_pos i with rfl | later
        · simp only [add_zero]
          rw [first, if_neg (by omega)]
        · obtain ⟨i, rfl⟩ := Nat.exists_eq_add_one.mpr later
          have here := copied i (by omega)
          rw [Nat.add_right_comm, Nat.add_right_comm s] at here
          rw [← add_assoc, ← add_assoc, here]
          by_cases again : s + i + 1 = d
          · rw [again, if_neg (by omega), if_pos (by omega), update_self, first]
          · rw [update_of_ne again]
            by_cases overlap : d ≤ s + i + 1 ∧ s < d
            · rw [if_pos (by omega), if_pos overlap]
            · rw [if_neg (by omega), if_neg overlap]

theorem decr_succ (p : Nat) : decr ((p + 1) % 2 ^ 32) = p % 2 ^ 32 := by
  unfold decr
  split <;> omega

/-- Downwards, no byte of the source in front of the target is overwritten before it is copied. -/
theorem copyDown_moved (before : src < dst) (target : dst + n ≤ 2 ^ 32) :
    Moved dst src n m (copyDown ((dst + n) % 2 ^ 32) ((src + n) % 2 ^ 32) n m) := by
  induction n generalizing m with
  | zero => exact ⟨fun i less => absurd less (Nat.not_lt_zero i), fun _ _ => rfl⟩
  | succ n ih =>
    have last : (dst + n) % 2 ^ 32 = dst + n := Nat.mod_eq_of_lt (by omega)
    have first : (src + n) % 2 ^ 32 = src + n := Nat.mod_eq_of_lt (by omega)
    rw [copyDown, ← add_assoc, ← add_assoc, decr_succ, decr_succ, last, first]
    rw [last, first] at ih
    obtain ⟨moved, kept⟩ := @ih (update m (dst + n) (m (src + n))) (by omega)
    refine ⟨fun i less => ?_, fun a outside => ?_⟩
    · rcases Nat.lt_or_ge i n with inner | end_
      · rw [moved i inner, update_of_ne (by omega)]
      · obtain rfl : i = n := by omega
        rw [kept (dst + i) (by omega), update_self]
    · rw [kept a (by omega), update_of_ne (by omega)]

/-- Upwards, the bytes have moved exactly if the source repeats itself. -/
theorem copyUp_moved_iff (target : dst + n ≤ 2 ^ 32) (source : src + n ≤ 2 ^ 32) :
    Moved dst src n m (copyUp dst src n m) ↔ Repeats dst src n m := by
  obtain ⟨kept, copied⟩ := @copyUp_spec n m dst src target source
  constructor
  · rintro ⟨moved, -⟩ before i less inside
    obtain ⟨j, place⟩ := Nat.exists_eq_add_of_le inside
    have back : src + i - (dst - src) = src + j := by omega
    rw [back, ← moved i less, copied i less, if_pos ⟨inside, before⟩, place, moved j (by omega)]
  · intro repeats
    refine ⟨fun i less => ?_, kept⟩
    -- the byte it was copied from is nearer to the beginning
    induction i using Nat.strongRecOn with
    | ind i ih =>
      rw [copied i less]
      split
      · rename_i overlap
        obtain ⟨j, place⟩ := Nat.exists_eq_add_of_le overlap.1
        have back : src + i - (dst - src) = src + j := by omega
        rw [place, ih j (by omega) (by omega), ← place, repeats overlap.2 i less overlap.1, back]
      · rfl

/-- The kernel's `memmove` moves the bytes. -/
theorem Kernel.memmove_moved (target : dst + n ≤ 2 ^ 32) (source : src + n ≤ 2 ^ 32) :
    Moved dst src n m (memmove dst src n m) := by
  rw [memmove]
  split
  · rename_i overlap
    exact copyDown_moved overlap.1 target
  · rename_i apart
    refine (copyUp_moved_iff target source).mpr fun before i less inside => ?_
    have short : src + n < 2 ^ 32 := by omega
    rw [Nat.mod_eq_of_lt short] at apart
    omega

/-- Without a wrap of the addresses, the kernel's `memmove` moves the bytes; that of the user
library does so, and agrees with it, exactly if the source repeats itself where the target begins
inside it. -/
theorem memmove_exact_iff (m : Bytes) (target : dst + n ≤ 2 ^ 32) (source : src + n ≤ 2 ^ 32) :
    Moved dst src n m (Kernel.memmove dst src n m) ∧
    (Moved dst src n m (User.memmove dst src n m) ↔ Repeats dst src n m) ∧
    (User.memmove dst src n m = Kernel.memmove dst src n m ↔ Repeats dst src n m) := by
  have kernel : Moved dst src n m (Kernel.memmove dst src n m) :=
    Kernel.memmove_moved target source
  have user : Moved dst src n m (User.memmove dst src n m) ↔ Repeats dst src n m :=
    copyUp_moved_iff target source
  refine ⟨kernel, user, fun same => user.mp (same ▸ kernel), fun repeats => ?_⟩
  exact (user.mpr repeats).unique kernel

theorem memmove_exact_iff_down :
    Moved 4 5 3 (fun a => .ofNat a) (User.memmove 4 5 3 fun a => .ofNat a) :=
  (@memmove_exact_iff 4 5 3 _ (by decide) (by decide)).2.1.mpr fun before =>
    absurd before (by decide)

/-- Two bytes moved by one place: the user library copies the first one twice. -/
theorem memmove_copies_first : User.memmove 1 0 2 (fun a => .ofNat a) 2 = 0 ∧
    Kernel.memmove 1 0 2 (fun a => .ofNat a) 2 = 1 := by decide

end Xv6.Memmove
