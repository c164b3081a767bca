import Mathlib.Data.List.Infix
import Xv6.Lib.Fifo
import Xv6.Pipe.Calls

/-!
# The bytes of a pipe

Bytes are handed to readers in the order in which they were stored, each once. The counters wrap
at 2³², a multiple of the size of the ring, so the cell of a counter does not notice, and the
queue between them is never longer than the ring.
-/

namespace Xv6.Pipe

open Lib Xv6.Proc List

variable {α : Type} {s t : PipeState α} {p : Nat}

/-- The ring holds the bytes that are stored and not yet handed out. -/
def Ordered (s : PipeState α) : Prop :=
  ∃ queue, s.stored = s.handed ++ queue ∧
    Fifo.Holds pipeSize (2 ^ 32) s.data s.nread s.nwrite queue

theorem pipeSize_dvd : pipeSize ∣ 2 ^ 32 := ⟨2 ^ 23, by decide⟩

theorem pipeSize_lt : pipeSize < 2 ^ 32 := by decide

theorem Ordered.next (h : Ordered s) (moves : s.next p = some t) : Ordered t := by
  obtain ⟨queue, split, holds⟩ := h
  cases next_pipe moves with
  | same same =>
    exact ⟨queue, by rw [same.stored, same.handed, split],
      by rw [same.data, same.nread, same.nwrite]; exact holds⟩
  | store n byte rest stored here room after =>
    have short : queue.length < pipeSize := by
      have full := mt (holds.full_iff pipeSize_lt).mpr room
      have := holds.bound
      omega
    subst after
    refine ⟨queue ++ [byte], ?_, holds.push pipeSize_dvd short⟩
    change s.stored ++ [byte] = s.handed ++ (queue ++ [byte])
    rw [split, append_assoc]
  | take n i here more after =>
    cases queue with
    | nil => exact absurd ((holds.empty_iff pipeSize_lt).mpr rfl) more
    | cons byte rest =>
      obtain ⟨first, popped⟩ := holds.pop pipeSize_dvd
      subst after
      refine ⟨rest, ?_, popped⟩
      change s.stored = s.handed ++ [s.data (s.nread % pipeSize)] ++ rest
      rw [split, first, append_assoc, singleton_append]
  | close writable here after =>
    subst after
    cases writable <;> exact ⟨queue, split, holds⟩

theorem Ordered.step (h : Ordered s) {action : PipeAction α}
    (moves : pipeStep s (p, action) = some t) : Ordered t := by
  obtain ⟨_, moves⟩ | ⟨_, begins⟩ := pipeStep_cases moves
  · exact h.next moves
  · obtain ⟨queue, split, holds⟩ := h
    have same := begins.pipe
    exact ⟨queue, by rw [same.stored, same.handed, split],
      by rw [same.data, same.nread, same.nwrite]; exact holds⟩

theorem Ordered.init (data : Nat → α) (creator : Nat) : Ordered (initPipe data creator) :=
  ⟨[], rfl, .nil data (Nat.two_pow_pos 32)⟩

/-- What has been handed to readers is a prefix of what writers have stored, the counters are at
most the size of the pipe apart, and a `piperead` that asked for some bytes returns 0 only if the
write end is closed and every byte has been handed out. -/
theorem pipe_delivers_in_order (data : Nat → α) (creator : Nat)
    (reached : Reach pipeStep (fun _ _ => True) (initPipe data creator) s) :
    s.handed <+: s.stored ∧ (s.nwrite + 2 ^ 32 - s.nread) % 2 ^ 32 ≤ pipeSize ∧
    ∀ p n, s.pc p = .ret (.read n 0) → 0 < n → s.writeopen = false ∧ s.handed = s.stored := by
  have all : Locked s ∧ Knowing s ∧ Ordered s := by
    refine reached.invariant (fun s => Locked s ∧ Knowing s ∧ Ordered s)
      ⟨.init data creator, .init data creator, .init data creator⟩ ?_
    rintro s ⟨p, action⟩ later ⟨locked, knowing, ordered⟩ _ moves
    exact ⟨locked.step moves, knowing.step locked moves, ordered.step moves⟩
  obtain ⟨_, knowing, queue, split, holds⟩ := all
  refine ⟨⟨queue, split.symm⟩, ?_, fun p n returns positive => ?_⟩
  · rw [holds.distance pipeSize_lt]
    exact holds.bound
  · have knows := knowing p
    rw [returns] at knows
    obtain ⟨empty, shut⟩ := knows positive rfl
    obtain rfl := (holds.empty_iff pipeSize_lt).mp empty
    exact ⟨shut, by simpa using split.symm⟩

/-- One process stores a byte and closes the write end. -/
def writeClose : List (Nat × PipeAction Nat) :=
  (0, .write [7]) :: replicate 7 (0, .next) ++ (0, .close true) :: replicate 6 (0, .next)

/-- It reads the byte, and the next `piperead` returns 0. -/
theorem pipe_delivers_in_order_drained : ∃ s : PipeState Nat,
    s.pc 0 = .ret (.read 1 0) ∧ s.stored = [7] ∧ s.writeopen = false ∧ s.handed = s.stored := by
  obtain ⟨s, reached, returns, stored⟩ :
      ∃ s, Reach pipeStep (fun _ _ => True) (initPipe (fun _ => 0) 0) s ∧
        s.pc 0 = .ret (.read 1 0) ∧ s.stored = [7] :=
    exists_reach (writeClose ++ (0, .read 1) :: replicate 8 (0, .next) ++
      (0, .read 1) :: replicate 6 (0, .next)) (by decide +kernel)
  exact ⟨s, returns, stored,
    (pipe_delivers_in_order _ 0 reached).2.2 0 1 returns (by decide)⟩

/-- A `piperead` for no bytes returns 0 although the byte has not been handed out. -/
theorem read_none_returns_zero : ∃ s : PipeState Nat,
    Reach pipeStep (fun _ _ => True) (initPipe (fun _ => 0) 0) s ∧
    s.pc 0 = .ret (.read 0 0) ∧ s.writeopen = false ∧ s.stored = [7] ∧ s.handed = [] :=
  exists_reach (writeClose ++ (0, .read 0) :: replicate 6 (0, .next)) (by decide +kernel)

end Xv6.Pipe
