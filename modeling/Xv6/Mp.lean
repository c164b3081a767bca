import Mathlib.Logic.Function.Basic
import Xv6.Param

/-!
# The MP configuration table

`mpconfig` of `mp.c` finds the table that the firmware left and checks its signature, version and
checksum; `mpinit` walks its entries. The length of an entry depends on its first byte. For a byte
that is none of the five types, `break` leaves only the `switch`: `ismp` is cleared, `p` stays, and
the loop reads the same byte again. So the loop ends just for tables whose entries are all of known
types, and the panic for an unsuitable machine is never reached.

Memory is read at virtual addresses. Pointers into a table do not wrap.
-/

namespace Xv6.Mp

open Function

/-- The bytes of memory. -/
abbrev Memory : Type := Nat → UInt8

/-- `P2V`. -/
def p2v (a : Nat) : Nat := (a + 0x80000000) % 2 ^ 32

/-- A `ushort` in memory. -/
def ushortAt (mem : Memory) (p : Nat) : Nat := (mem p).toNat + 256 * (mem (p + 1)).toNat

/-- A `uint` or a pointer in memory. -/
def uintAt (mem : Memory) (p : Nat) : Nat := ushortAt mem p + 2 ^ 16 * ushortAt mem (p + 2)

/-- `sum`; the `int` holds the sum of any table and is cut to a `uchar` on return. -/
def sum (mem : Memory) (addr len : Nat) : UInt8 :=
  UInt8.ofNat ((List.range len).foldl (fun sum i => sum + (mem (addr + i)).toNat) 0)

/-- `memcmp(p, text, 4) == 0`. -/
def matches4 (mem : Memory) (p : Nat) (text : String) : Bool :=
  (List.range 4).map (fun i => (mem (p + i)).toNat) = text.toList.map Char.toNat

/-- `mpsearch1`. -/
def mpsearch1 (mem : Memory) (a len : Nat) : Option Nat :=
  ((List.range ((len + 15) / 16)).map fun i => p2v a + 16 * i).find? fun p =>
    matches4 mem p "_MP_" && sum mem p 16 == 0

/-- `mpsearch`. -/
def mpsearch (mem : Memory) : Option Nat :=
  let bda := p2v 0x400
  let ebda := ushortAt mem (bda + 0x0E) * 16
  let base := ushortAt mem (bda + 0x13) * 1024
  let start := if ebda ≠ 0 then ebda else (base + 2 ^ 32 - 1024) % 2 ^ 32
  (mpsearch1 mem start 1024).or (mpsearch1 mem 0xF0000 0x10000)

/-- `conf->length`. -/
def confLength (mem : Memory) (conf : Nat) : Nat := ushortAt mem (conf + 4)

/-- `mpconfig`: the floating pointer and the table it leads to. -/
def mpconfig (mem : Memory) : Option (Nat × Nat) :=
  (mpsearch mem).bind fun mp =>
    if uintAt mem (mp + 4) = 0 then none
    else
      let conf := p2v (uintAt mem (mp + 4))
      if ¬ matches4 mem conf "PCMP" then none
      else if mem (conf + 6) ≠ 1 ∧ mem (conf + 6) ≠ 4 then none
      else if sum mem conf (confLength mem conf) ≠ 0 then none
      else some (mp, conf)

/-- `MPPROC` to `MPLINTR`. -/
inductive EntryType where
  | proc
  | bus
  | ioapic
  | iointr
  | lintr
  deriving DecidableEq

namespace EntryType

/-- The type that a byte stands for. -/
def ofByte (byte : UInt8) : Option EntryType :=
  [proc, bus, ioapic, iointr, lintr][byte.toNat]?

/-- Bytes of an entry. -/
def size : EntryType → Nat
  | proc => 20
  | _ => 8

end EntryType

/-- The variables that the loop of `mpinit` changes. -/
structure Scan where
  p : Nat
  ismp : Bool
  ncpu : Nat
  apicid : Nat → UInt8
  ioapicid : UInt8

/-- One turn of the loop. -/
def turn (mem : Memory) (s : Scan) : Scan :=
  match EntryType.ofByte (mem s.p) with
  | some .proc =>
    let s := if s.ncpu < nCpu then
        { s with apicid := update s.apicid s.ncpu (mem (s.p + 1)), ncpu := s.ncpu + 1 }
      else s
    { s with p := s.p + EntryType.proc.size }
  | some .ioapic =>
    { s with ioapicid := mem (s.p + 1), p := s.p + EntryType.ioapic.size }
  | some entry => { s with p := s.p + entry.size }
  | none => { s with ismp := false }

/-- The loop up to the address `e`, for at most a number of turns. -/
def loop (mem : Memory) (e : Nat) : Nat → Scan → Scan
  | 0, s => s
  | turns + 1, s => if s.p < e then loop mem e turns (turn mem s) else s

/-- The loop over the table at `conf`, which begins behind the 44 bytes of the header. -/
def scan (mem : Memory) (conf turns : Nat) : Scan :=
  loop mem (conf + confLength mem conf) turns ⟨conf + 44, true, 0, fun _ => 0, 0⟩

/-- What `mpinit` leaves. -/
structure Machine where
  lapic : Nat
  found : Scan
  /-- Whether `IMCR` is selected and external interrupts are masked. -/
  imcr : Bool

/-- `mpinit`; nothing if the loop still runs after a number of turns. -/
def mpinit (mem : Memory) (turns : Nat) : Option (Except String Machine) :=
  match mpconfig mem with
  | none => some (.error "Expect to run on an SMP")
  | some (mp, conf) =>
    let s := scan mem conf turns
    if s.p < conf + confLength mem conf then none
    else if ¬ s.ismp then some (.error "Didn't find a suitable machine")
    else some (.ok ⟨uintAt mem (conf + 36), s, mem (mp + 12) ≠ 0⟩)

/-- Entries of known types, one behind the other, reach from an address to the end. -/
inductive Entries (mem : Memory) (e : Nat) : Nat → Prop where
  | done {p : Nat} : e ≤ p → Entries mem e p
  | entry {p : Nat} {kind : EntryType} : p < e → EntryType.ofByte (mem p) = some kind →
      Entries mem e (p + kind.size) → Entries mem e p

variable {mem : Memory} {e turns : Nat} {s : Scan}

theorem turn_known {kind : EntryType} (known : EntryType.ofByte (mem s.p) = some kind) :
    (turn mem s).p = s.p + kind.size ∧ (turn mem s).ismp = s.ismp := by
  rw [turn, known]
  cases kind with
  | proc =>
    dsimp only
    split <;> exact ⟨rfl, rfl⟩
  | bus | ioapic | iointr | lintr => exact ⟨rfl, rfl⟩

theorem turn_unknown (unknown : EntryType.ofByte (mem s.p) = none) : (turn mem s).p = s.p := by
  rw [turn, unknown]

/-- A turn counts a processor only while there is room. -/
theorem turn_ncpu (room : s.ncpu ≤ nCpu) : (turn mem s).ncpu ≤ nCpu := by
  rw [turn]
  split
  case h_1 =>
    dsimp only
    split
    · assumption
    · exact room
  all_goals exact room

theorem loop_ncpu (room : s.ncpu ≤ nCpu) : (loop mem e turns s).ncpu ≤ nCpu := by
  induction turns generalizing s with
  | zero => exact room
  | succ turns ih =>
    rw [loop]
    split
    · exact ih (turn_ncpu room)
    · exact room

/-- The loop reaches the end just over entries of known types. -/
theorem loop_ends_iff : (∃ turns, e ≤ (loop mem e turns s).p) ↔ Entries mem e s.p := by
  constructor
  · rintro ⟨turns, ends⟩
    induction turns generalizing s with
    | zero => exact .done ends
    | succ turns ih =>
      rw [loop] at ends
      split at ends
      case isFalse beyond => exact .done (Nat.not_lt.mp beyond)
      case isTrue inside =>
        have rest := ih ends
        cases known : EntryType.ofByte (mem s.p) with
        | none => rwa [turn_unknown known] at rest
        | some kind =>
          rw [(turn_known known).1] at rest
          exact .entry inside known rest
  · intro entries
    generalize start : s.p = p at entries
    induction entries generalizing s with
    | done beyond => exact ⟨0, start ▸ beyond⟩
    | entry inside known _ ih =>
      subst start
      obtain ⟨turns, ends⟩ := ih (turn_known known).1
      refine ⟨turns + 1, ?_⟩
      rwa [loop, if_pos inside]

/-- A table with an entry of an unknown type is never left. -/
theorem loop_ismp (ends : e ≤ (loop mem e turns s).p) : (loop mem e turns s).ismp = s.ismp := by
  induction turns generalizing s with
  | zero => rfl
  | succ turns ih =>
    rw [loop] at ends ⊢
    split at ends
    case isFalse beyond => rw [if_neg beyond]
    case isTrue inside =>
      rw [if_pos inside, ih ends]
      cases known : EntryType.ofByte (mem s.p) with
      | some kind => exact (turn_known known).2
      | none =>
        -- The address is the same after every turn, so the loop cannot have ended.
        have entries := loop_ends_iff.mp ⟨turns, ends⟩
        rw [turn_unknown known] at entries
        cases entries with
        | done beyond => exact absurd inside (Nat.not_lt.mpr beyond)
        | entry _ other => rw [known] at other; nomatch other

/-- For every table that `mpconfig` accepts, `mpinit` leaves its loop just if the entries from the
header to the length of the table are all of known types. It has then not decided that the machine
is unsuitable. `ncpu` is at most `NCPU` after any number of turns. -/
theorem mpinit_ends_iff (mem : Memory) {mp conf : Nat} (accepted : mpconfig mem = some (mp, conf)) :
    ((∃ turns, (mpinit mem turns).isSome) ↔
      Entries mem (conf + confLength mem conf) (conf + 44)) ∧
    (∀ turns message, mpinit mem turns ≠ some (.error message)) ∧
    ∀ turns, (scan mem conf turns).ncpu ≤ nCpu := by
  refine ⟨?_, fun turns message failed => ?_, fun turns => loop_ncpu (Nat.zero_le _)⟩
  · refine Iff.trans (exists_congr fun turns => ?_)
      (loop_ends_iff (s := ⟨conf + 44, true, 0, fun _ => 0, 0⟩))
    simp only [mpinit, accepted, ← Nat.not_lt]
    split
    case isTrue inside => exact iff_of_false Bool.false_ne_true (not_not_intro inside)
    case isFalse beyond =>
      refine iff_of_true ?_ beyond
      split <;> rfl
  · simp only [mpinit, accepted] at failed
    split at failed
    case isTrue inside => nomatch failed
    case isFalse beyond =>
      have suitable : (scan mem conf turns).ismp = true := loop_ismp (Nat.not_lt.mp beyond)
      rw [suitable] at failed
      nomatch failed

/-- Memory with an MP floating pointer in the EBDA and a table of one entry of 8 bytes, of a given
type; `check` makes the checksum of the table come out. -/
def firmware (kind check : UInt8) : Memory := fun a =>
  let segments : List (Nat × List UInt8) :=
    [(0x8000040E, [0xC0, 0x9F]),
     (0x8009FC00, [0x5F, 0x4D, 0x50, 0x5F, 0x00, 0xFD, 0x09, 0x00, 1, 4, 0x9A, 0, 0, 0, 0, 0]),
     (0x8009FD00, [0x50, 0x43, 0x4D, 0x50, 52, 0, 4, check]),
     (0x8009FD2C, [kind])]
  (segments.findSome? fun segment =>
    if segment.1 ≤ a then segment.2[a - segment.1]? else none).getD 0

/-- A table with one bus entry. -/
theorem mpinit_ends_iff_bus : mpconfig (firmware 1 0x97) = some (0x8009FC00, 0x8009FD00) ∧
    ∃ turns, (mpinit (firmware 1 0x97) turns).isSome := by
  have accepted : mpconfig (firmware 1 0x97) = some (0x8009FC00, 0x8009FD00) := by decide +kernel
  refine ⟨accepted, (mpinit_ends_iff _ accepted).1.mpr ?_⟩
  have bus : EntryType.ofByte (firmware 1 0x97 (0x8009FD00 + 44)) = some .bus := by decide +kernel
  exact .entry (by decide +kernel) bus (.done (by decide +kernel))

/-- An accepted table whose only entry has type 5: the loop of `mpinit` never ends. -/
theorem mpinit_spins : mpconfig (firmware 5 0x93) = some (0x8009FC00, 0x8009FD00) ∧
    ∀ turns, mpinit (firmware 5 0x93) turns = none := by
  have accepted : mpconfig (firmware 5 0x93) = some (0x8009FC00, 0x8009FD00) := by decide +kernel
  refine ⟨accepted, fun turns => ?_⟩
  rw [mpinit, accepted]
  refine if_pos (Nat.not_le.mp fun ends => ?_)
  have entries := loop_ends_iff.mp ⟨turns, ends⟩
  cases entries with
  | done beyond => exact absurd beyond (by decide +kernel)
  | entry _ known =>
    have unknown : EntryType.ofByte (firmware 5 0x93 (0x8009FD00 + 44)) = none := by decide +kernel
    rw [unknown] at known
    nomatch known

end Xv6.Mp
