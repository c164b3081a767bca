import Mathlib.Data.Nat.ModEq

/-!
# Queues in a ring of cells

A ring of `size` cells with two counters that only ever grow and wrap at `wrap`, a multiple of
the size. A counter's cell is its remainder by the size. `Holds` says which queue the cells
between the counters hold; the counters tell an empty ring from a full one because the queue is
no longer than the ring and the ring is smaller than the range of the counters.
-/

namespace Xv6.Lib.Fifo

open Function List

variable {α : Type}

/-- The cells from `head` on hold the queue, and `tail` is the counter behind it. -/
structure Holds (size wrap : Nat) (cells : Nat → α) (head tail : Nat) (queue : List α) :
    Prop where
  start : head < wrap
  stop : tail = (head + queue.length) % wrap
  bound : queue.length ≤ size
  cell : ∀ k (inside : k < queue.length), cells ((head + k) % wrap % size) = queue[k]

variable {size wrap head tail n : Nat} {cells : Nat → α} {queue rest : List α} {item : α}

/-- Before anything is stored. -/
theorem Holds.nil (cells : Nat → α) (start : head < wrap) :
    Holds size wrap cells head head [] where
  start := start
  stop := by simp [Nat.mod_eq_of_lt start]
  bound := by simp
  cell k inside := by simp at inside

/-- A counter advanced by less than its range is that far from where it was. -/
theorem distance_advance (start : head < wrap) (short : n < wrap) :
    ((head + n) % wrap + wrap - head) % wrap = n := by
  rcases Nat.lt_or_ge (head + n) wrap with below | above
  · rw [Nat.mod_eq_of_lt below, show head + n + wrap - head = n + wrap by omega,
      Nat.add_mod_right, Nat.mod_eq_of_lt short]
  · rw [Nat.mod_eq_sub_mod above, Nat.mod_eq_of_lt (show head + n - wrap < wrap by omega),
      show head + n - wrap + wrap - head = n by omega, Nat.mod_eq_of_lt short]

/-- A counter that goes back by one undoes its last advance. -/
theorem retreat (positive : 0 < wrap) : ((n + 1) % wrap + wrap - 1) % wrap = n % wrap := by
  rw [Nat.add_sub_assoc positive, Nat.mod_add_mod, show n + 1 + (wrap - 1) = n + wrap by omega,
    Nat.add_mod_right]

/-- Counters less than a ring apart have different cells. -/
theorem cell_injective {i j : Nat} (belowI : i < size) (belowJ : j < size)
    (same : (n + i) % size = (n + j) % size) : i = j := by
  have modEq : i ≡ j [MOD size] := Nat.ModEq.add_left_cancel' n same
  rwa [Nat.ModEq, Nat.mod_eq_of_lt belowI, Nat.mod_eq_of_lt belowJ] at modEq

namespace Holds

section Counters

variable (h : Holds size wrap cells head tail queue) (small : size < wrap)
include h small

/-- The distance of the counters is the length of the queue. -/
theorem distance : (tail + wrap - head) % wrap = queue.length := by
  rw [h.stop]
  exact distance_advance h.start (lt_of_le_of_lt h.bound small)

/-- Equal counters mean that the queue is empty. -/
theorem empty_iff : head = tail ↔ queue = [] := by
  constructor
  · rintro rfl
    have distance := h.distance small
    rw [Nat.add_sub_cancel_left, Nat.mod_self] at distance
    exact List.length_eq_zero_iff.mp distance.symm
  · rintro rfl
    simpa [Nat.mod_eq_of_lt h.start] using h.stop.symm

/-- The tail is a whole ring ahead exactly if the ring is full. -/
theorem full_iff : tail = (head + size) % wrap ↔ queue.length = size := by
  constructor
  · intro full
    have distance := h.distance small
    rw [full, distance_advance h.start small] at distance
    exact distance.symm
  · intro full
    rw [← full]
    exact h.stop

end Counters

/-- Forget the end of the queue. -/
theorem cut (h : Holds size wrap cells head tail (queue ++ rest)) :
    Holds size wrap cells head ((head + queue.length) % wrap) queue where
  start := h.start
  stop := rfl
  bound := by
    have bound := h.bound
    rw [length_append] at bound
    omega
  cell k inside := by
    rw [h.cell k (by rw [length_append]; omega), getElem_append_left inside]

/-- Take the last item of the queue back. -/
theorem unpush (h : Holds size wrap cells head tail (queue ++ [item])) :
    cells ((tail + wrap - 1) % wrap % size) = item ∧
      Holds size wrap cells head ((tail + wrap - 1) % wrap) queue := by
  have positive : 0 < wrap := lt_of_le_of_lt (Nat.zero_le _) h.start
  have back : (tail + wrap - 1) % wrap = (head + queue.length) % wrap := by
    rw [h.stop, length_append, length_singleton, ← add_assoc, retreat positive]
  rw [back]
  refine ⟨?_, h.cut⟩
  rw [h.cell queue.length (by simp)]
  simp

variable (divides : size ∣ wrap)
include divides

/-- The cell of a counter does not notice that the counter wraps. -/
theorem cell_mod (n : Nat) : n % wrap % size = n % size := Nat.mod_mod_of_dvd n divides

/-- Store an item behind the queue. -/
theorem push (h : Holds size wrap cells head tail queue) (room : queue.length < size) :
    Holds size wrap (update cells (tail % size) item) head ((tail + 1) % wrap)
      (queue ++ [item]) where
  start := h.start
  stop := by
    rw [h.stop, length_append, length_singleton, Nat.mod_add_mod, add_assoc]
  bound := by
    rw [length_append, length_singleton]
    omega
  cell k inside := by
    rw [length_append, length_singleton] at inside
    have place : tail % size = (head + queue.length) % size := by
      rw [h.stop, cell_mod divides]
    rw [cell_mod divides, place]
    by_cases last : k = queue.length
    · subst last
      rw [update_self]
      simp
    · have below : k < queue.length := by omega
      have other : (head + k) % size ≠ (head + queue.length) % size := fun same =>
        last (cell_injective (by omega) room same)
      rw [update_of_ne other, getElem_append_left below, ← h.cell k below,
        cell_mod divides]

/-- Take the first item of the queue. -/
theorem pop (h : Holds size wrap cells head tail (item :: rest)) :
    cells (head % size) = item ∧ Holds size wrap cells ((head + 1) % wrap) tail rest := by
  have positive : 0 < wrap := lt_of_le_of_lt (Nat.zero_le _) h.start
  refine ⟨?_, Nat.mod_lt _ positive, ?_, ?_, fun k inside => ?_⟩
  · have first := h.cell 0 (by simp)
    rwa [cell_mod divides, add_zero] at first
  · rw [h.stop, length_cons, Nat.mod_add_mod, add_right_comm, add_assoc]
  · have := h.bound
    rw [length_cons] at this
    omega
  · have later := h.cell (k + 1) (by simpa using inside)
    rw [getElem_cons_succ] at later
    rw [Nat.mod_add_mod, add_right_comm, add_assoc]
    exact later

end Holds

end Xv6.Lib.Fifo
