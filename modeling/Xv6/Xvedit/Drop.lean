import Xv6.Xvedit.Invariant
import Xv6.Xvedit.Range

/-!
# `DROP`

With both ends, `drop` starts at the line before the range, and keeps the first node it frees;
from a line on, it counts one line too few; the whole file it does not touch. Up to a line it
deletes the nodes in front, but what it has deleted is no longer counted, so that it only gets
through half of the lines.
-/

namespace Xv6.Xvedit

open Function Lib Option List

namespace Contents

variable {s t : Contents} {nodes front rest : List Nat} {start stop : Int} {fuel ln i p q a : Nat}

/-- The lines `a` to `b` are gone, and nothing else: no node that is left has been freed. -/
def Dropped (s t : Contents) (nodes : List Nat) (a b : Nat) : Prop :=
  ∃ left, t.Reached left ∧ (∀ p ∈ left, p ∈ t.live) ∧
    left.map (fun p => (t.mem p).line) = (nodes.map fun p => (s.mem p).line).take (a - 1) ++
      (nodes.map fun p => (s.mem p).line).drop b ∧
    t.count = s.count - (b + 1 - a : Int)

/-! ## What is deleted wrongly -/

/-- The inner loop without an end does not count the last node. -/
theorem dropRest_count (moves : dropRest fuel s p = some t)
    (path : Path (fun p => (s.mem p).next) p (q :: rest) 0) (null : 0 ∉ rest) :
    t.count = s.count - rest.length := by
  induction rest generalizing s p q fuel with
  | nil =>
    cases fuel with
    | zero => contradiction
    | succ fuel =>
      obtain ⟨after, next, moves⟩ := bind_eq_some_iff.mp moves
      have ends : after = 0 := by
        obtain ⟨rfl, ends⟩ := path
        grind [Contents.next, Lib.Path]
      simp only [ends, ne_eq, not_true_eq_false, if_false] at moves
      obtain ⟨-, rfl⟩ := free_cases moves
      simp
  | cons a rest ih =>
    cases fuel with
    | zero => contradiction
    | succ fuel =>
      obtain ⟨after, next, moves⟩ := bind_eq_some_iff.mp moves
      obtain ⟨rfl, path⟩ := path
      obtain rfl : after = (s.mem p).next := by grind [Contents.next]
      have inner : (s.mem p).next ≠ 0 := by grind [Lib.Path]
      rw [if_pos inner] at moves
      obtain ⟨u, freed, moves⟩ := bind_eq_some_iff.mp moves
      obtain ⟨-, rfl⟩ := free_cases freed
      have counted := ih moves path (not_mem_of_not_mem_cons null)
      simp only [length_cons] at counted ⊢
      omega

/-- The inner loop with both ends. -/
theorem dropNodes_cases (moves : dropNodes front.length s p = some (t, q))
    (path : Path (fun p => (s.mem p).next) p (front ++ rest) 0) :
    t.count = s.count - front.length ∧ t.mem = s.mem ∧ t.head = s.head ∧
      Path (fun p => (s.mem p).next) q rest 0 := by
  induction front generalizing s p with
  | nil =>
    cases moves
    exact ⟨by simp, rfl, rfl, path⟩
  | cons a front ih =>
    rw [length_cons, dropNodes] at moves
    obtain ⟨after, next, moves⟩ := bind_eq_some_iff.mp moves
    obtain ⟨u, freed, moves⟩ := bind_eq_some_iff.mp moves
    obtain ⟨-, rfl⟩ := free_cases freed
    obtain ⟨rfl, path⟩ := path
    obtain rfl : after = (s.mem p).next := by grind [Contents.next]
    obtain ⟨count, mem, head, ends⟩ := ih moves path
    refine ⟨?_, mem, head, ends⟩
    simp only [length_cons] at count ⊢
    omega

/-- `drop` deletes nothing in front of its range. -/
theorem dropLoop_skip (path : Path (fun p => (s.mem p).next) ln (front ++ rest) 0)
    (idle : ∀ j : Nat, j < i + front.length → start ≠ 0 ∧ j < start - 2 ∧ j < s.count)
    (moves : dropLoop start stop fuel s ln i = some t) :
    ∃ fuel p, dropLoop start stop fuel s p (i + front.length) = some t ∧
      Path (fun p => (s.mem p).next) p rest 0 := by
  induction front generalizing ln i fuel with
  | nil => exact ⟨fuel, ln, moves, path⟩
  | cons a front ih =>
    cases fuel with
    | zero => contradiction
    | succ fuel =>
      obtain ⟨rfl, path⟩ := path
      have here := idle i (by simp)
      rw [dropLoop, if_pos here.2.2] at moves
      obtain ⟨after, next, moves⟩ := bind_eq_some_iff.mp moves
      have more : after = (s.mem ln).next := by grind [Contents.next]
      simp only at moves
      rw [if_neg (by omega), if_neg (by omega), if_neg (by omega), if_neg (by omega), more] at moves
      obtain ⟨fuel, p, moves, path⟩ := ih path
        (fun j most => idle j (by rw [length_cons]; omega)) moves
      refine ⟨fuel, p, ?_, path⟩
      rw [length_cons, ← add_assoc, add_right_comm]
      exact moves

/-- With both ends it counts one line too many, or keeps the first one. -/
theorem Linked.not_dropped_both {b : Nat} (linked : s.Linked nodes 0) (least : 1 ≤ a)
    (order : a ≤ b) (most : b ≤ nodes.length) (moves : s.drop a b fuel = some t) :
    ¬s.Dropped t nodes a b := by
  rintro ⟨left, ⟨path', null⟩, -, lines, count⟩
  have counted := linked.count
  obtain ⟨fuel, p, moves, path⟩ := @dropLoop_skip { s with changes := incr s.changes } t
    (nodes.take (a - 2)) (nodes.drop (a - 2)) a b fuel s.head 0
    (by rw [take_append_drop]; exact linked.path)
    (fun j below => by rw [length_take] at below; change _ ∧ _ ∧ _ < s.count; omega) moves
  rw [length_take, Nat.min_eq_left (by omega), zero_add] at moves
  cases fuel with
  | zero => contradiction
  | succ fuel =>
    rw [Contents.dropLoop, if_pos (by change _ < s.count; omega)] at moves
    obtain ⟨after, -, moves⟩ := bind_eq_some_iff.mp moves
    simp only at moves
    rw [if_neg (by omega), if_neg (by omega), if_neg (by omega), if_pos (by omega)] at moves
    obtain ⟨⟨u, q⟩, dropped, moves⟩ := bind_eq_some_iff.mp moves
    obtain ⟨-, rfl⟩ := setNext_cases moves
    have size : ((b : Int) - (a - 2 : Nat)).toNat =
        ((nodes.drop (a - 2)).take (b - (a - 2))).length := by
      rw [length_take, length_drop]
      omega
    rw [size] at dropped
    obtain ⟨count', mem, head, rest⟩ := @dropNodes_cases { s with changes := incr s.changes } u _
      ((nodes.drop (a - 2)).drop (b - (a - 2))) p q dropped (by rwa [take_append_drop])
    simp only at count count' head mem path' lines
    rw [count', length_take, length_drop] at count
    -- the count is right only for the first line, which is still there
    obtain rfl : a = 1 := by omega
    obtain ⟨first, tail, rfl⟩ := exists_cons_of_ne_nil linked.ne_nil
    obtain rfl : p = first := path.1
    have once := (nodup_cons.mp linked.nodup).1
    have behind : ∀ x ∈ (p :: tail).drop b, x ∈ tail := by
      obtain ⟨b, rfl⟩ : ∃ c, b = c + 1 := ⟨b - 1, by omega⟩
      exact fun x member => mem_of_mem_drop member
    have kept : Path (fun x => (update u.mem p { u.mem p with next := q } x).next) u.head
        (p :: (p :: tail).drop b) 0 := by
      rw [next_update, mem, head]
      refine ⟨linked.path.1, ?_⟩
      rw [update_self]
      exact Path.update (by simpa using rest) fun member => once (behind p member)
    have same := path'.unique kept null fun member =>
      linked.null ((List.mem_cons.mp member).elim (fun zero => zero ▸ mem_cons_self)
        fun inside => mem_cons_of_mem _ (behind 0 inside))
    have lengths := congrArg List.length lines
    simp [same] at lengths

/-- Up to a line it stops where it has deleted half of the lines. -/
theorem dropLoop_half (moves : dropLoop 0 stop fuel s ln i = some t) :
    ∃ k : Nat, t.count = s.count - k ∧ (k = 0 ∨ i + 2 * (k - 1 : Int) < s.count) := by
  induction fuel generalizing s ln i with
  | zero => contradiction
  | succ fuel ih =>
    rw [dropLoop] at moves
    split at moves
    · obtain ⟨after, -, moves⟩ := bind_eq_some_iff.mp moves
      rw [if_neg (by simp)] at moves
      split at moves
      · obtain ⟨u, freed, moves⟩ := bind_eq_some_iff.mp moves
        obtain ⟨-, rfl⟩ := free_cases freed
        obtain ⟨k, fewer, half⟩ := ih moves
        simp only at fewer half
        exact ⟨k + 1, by omega, .inr (by omega)⟩
      · rw [if_neg (c := _ ∧ _ ∧ _ ∧ _) (by simp), ite_self] at moves
        obtain ⟨k, fewer, half⟩ := ih moves
        exact ⟨k, fewer, by omega⟩
    · cases moves
      exact ⟨0, by simp, .inl rfl⟩

/-- From a line on it counts one line too few, and from the first line on it does nothing. -/
theorem Linked.not_dropped_rest (linked : s.Linked nodes 0) (least : 1 ≤ a)
    (most : a ≤ nodes.length) (moves : s.drop a 0 fuel = some t) :
    ¬s.Dropped t nodes a nodes.length := by
  rintro ⟨-, -, -, -, count⟩
  have counted := linked.count
  by_cases one : a = 1
  · obtain rfl := dropLoop_idle (fun _ _ => by omega) (fun h => absurd rfl h)
      (fun h => absurd rfl h) moves
    simp only at count
    omega
  obtain ⟨fuel, p, moves, path⟩ := @dropLoop_skip { s with changes := incr s.changes } t
    (nodes.take (a - 2)) (nodes.drop (a - 2)) a 0 fuel s.head 0
    (by rw [take_append_drop]; exact linked.path)
    (fun j below => by rw [length_take] at below; change _ ∧ _ ∧ _ < s.count; omega) moves
  rw [length_take, Nat.min_eq_left (by omega), zero_add] at moves
  cases fuel with
  | zero => contradiction
  | succ fuel =>
    rw [Contents.dropLoop, if_pos (by change _ < s.count; omega)] at moves
    obtain ⟨after, next, moves⟩ := bind_eq_some_iff.mp moves
    rw [if_pos ⟨rfl, by omega, by omega⟩] at moves
    obtain ⟨u, ended, moves⟩ := bind_eq_some_iff.mp moves
    obtain ⟨-, rfl⟩ := setNext_cases ended
    have nodup := linked.nodup.sublist (drop_sublist (a - 2) nodes)
    have null : 0 ∉ nodes.drop (a - 2) := fun zero => linked.null (mem_of_mem_drop zero)
    have length := @length_drop _ (a - 2) nodes
    generalize nodes.drop (a - 2) = rest at path nodup null length
    rcases rest with _ | ⟨x, _ | ⟨y, rest⟩⟩
    · rw [length_nil] at length
      omega
    · rw [length_singleton] at length
      omega
    obtain ⟨rfl, path⟩ := path
    obtain rfl : after = (s.mem p).next := by grind [Contents.next]
    have counted' := dropRest_count (q := y) moves (by
      rw [next_update]
      exact path.update (nodup_cons.mp nodup).1) (by grind)
    simp only [length_cons] at counted' count length
    omega

/-! ## What is deleted rightly -/

/-- `drop` goes through the nodes behind its range. -/
theorem dropLoop_walk (path : Path (fun p => (s.mem p).next) ln rest 0) (null : 0 ∉ rest)
    (behind : stop ≤ i) (positive : stop ≠ 0) (room : s.count ≤ i + rest.length) :
    ∃ fuel, dropLoop 0 stop fuel s ln i = some s := by
  induction rest generalizing ln i with
  | nil => exact ⟨1, by rw [dropLoop, if_neg (by simp at room; omega)]⟩
  | cons a rest ih =>
    obtain ⟨rfl, path⟩ := path
    obtain ⟨fuel, goes⟩ := ih (i := i + 1) path (not_mem_of_not_mem_cons null)
      (by omega) (by rw [length_cons] at room; omega)
    refine ⟨fuel + 1, ?_⟩
    have inner := (ne_of_not_mem_cons null).symm
    rw [dropLoop]
    split
    · rw [Contents.next, if_pos inner]
      simp only [bind_eq_bind, bind_some]
      rw [if_neg (by omega), if_neg (by omega), if_neg (by omega), if_neg (by omega)]
      exact goes
    · rfl

/-- Up to a line it deletes the nodes in front as long as it counts enough lines behind them. -/
theorem dropLoop_front (k : Nat) (path : Path (fun p => (s.mem p).next) s.head nodes 0)
    (nodup : nodes.Nodup) (null : 0 ∉ nodes) (live : ∀ p ∈ nodes, p ∈ s.live)
    (count : s.count = nodes.length) (most : k ≤ nodes.length)
    (half : k = 0 ∨ i + 2 * (k - 1) < nodes.length) (positive : 0 < i + k) :
    ∃ fuel t, dropLoop 0 (i + k : Nat) fuel s s.head i = some t ∧ t.mem = s.mem ∧
      Path (fun p => (s.mem p).next) t.head (nodes.drop k) 0 ∧
      (∀ p ∈ nodes.drop k, p ∈ t.live) ∧ t.count = nodes.length - k := by
  induction k generalizing s nodes i with
  | zero =>
    obtain ⟨fuel, goes⟩ := @dropLoop_walk s nodes (i + 0 : Nat) s.head i path null (by simp)
      (by omega) (by omega)
    exact ⟨fuel, s, goes, rfl, path, live, by omega⟩
  | succ k ih =>
    obtain ⟨first, tail, rfl⟩ := exists_cons_of_ne_nil
      (ne_nil_of_length_pos (lt_of_lt_of_le (Nat.succ_pos k) most))
    obtain ⟨here, path⟩ := path
    rw [nodup_cons] at nodup
    rw [length_cons] at most half count
    have inner := (ne_of_not_mem_cons null).symm
    obtain ⟨fuel, t, goes, mem, path', live', count'⟩ := @ih { s with
        head := (s.mem first).next, count := s.count - 1, live := s.live.erase first } tail (i + 1)
      path nodup.2 (not_mem_of_not_mem_cons null)
      (fun p member => (List.mem_erase_of_ne (ne_of_mem_of_not_mem member nodup.1)).mpr
        (live p (mem_cons_of_mem _ member)))
      (by simp only; omega) (by omega) (by omega) (by omega)
    refine ⟨fuel + 1, t, ?_, mem, path', live', ?_⟩
    · rw [dropLoop, if_pos (by omega), here, Contents.next, if_pos inner]
      simp only [bind_eq_bind, bind_some]
      rw [if_neg (by omega), if_pos ⟨by omega, trivial, by omega⟩, free,
        if_pos (live first mem_cons_self), bind_some, ← add_assoc,
        add_right_comm]
      exact goes
    · rw [length_cons]
      omega

end Contents

open Contents in
/-- For every content of the buffers of `convert_range`, `DROP` deletes exactly its range exactly
if the range is given by its end, the end is below 1000, and there are enough lines behind it. -/
theorem drop_exact_iff {s : Contents} {nodes : List Nat} (linked : s.Linked nodes 0) {r : Range}
    (least : 1 ≤ r.first) (order : r.first ≤ r.last nodes.length)
    (most : r.last nodes.length ≤ nodes.length) :
    (∀ scratch, ∃ fuel t, s.drop (convertRange scratch r.text).1 (convertRange scratch r.text).2
      fuel = some t ∧ s.Dropped t nodes r.first (r.last nodes.length)) ↔
    ∃ b, r = .upTo b ∧ b < 1000 ∧ 2 * (b - 1) < nodes.length := by
  simp only [convertRange_text]
  have counted := linked.count
  -- an end that is read as -1 stops everything
  have idle : ∀ {a fuel t}, s.drop a (-1) fuel = some t →
      ¬s.Dropped t nodes r.first (r.last nodes.length) := by
    rintro a fuel t moves ⟨-, -, -, -, count⟩
    obtain rfl := dropLoop_idle (fun h => absurd h (by decide)) (fun _ _ => by omega)
      (fun _ _ => by omega) moves
    simp only at count
    omega
  have wrong : ∀ {n}, 1000 ≤ n → ∃ junk, readNumber junk n = -1 := fun large =>
    exists_readNumber large (by decide) (by decide)
  constructor
  · intro always
    cases r with
    | line n =>
      by_cases small : n < 1000
      · obtain ⟨fuel, t, moves, dropped⟩ := always ⟨[], []⟩
        rw [Range.ends, readNumber_small small] at moves
        exact absurd dropped (linked.not_dropped_both least order most moves)
      · obtain ⟨junk, read⟩ := wrong (Nat.le_of_not_lt small)
        obtain ⟨fuel, t, moves, dropped⟩ := always ⟨junk, []⟩
        rw [Range.ends, read] at moves
        exact absurd dropped (idle moves)
    | between a b =>
      by_cases small : b < 1000
      · obtain ⟨fuel, t, moves, dropped⟩ := always ⟨[], []⟩
        rw [Range.ends, readNumber_small small,
          @readNumber_small _ a (lt_of_le_of_lt order small)] at moves
        exact absurd dropped (linked.not_dropped_both least order most moves)
      · obtain ⟨junk, read⟩ := wrong (Nat.le_of_not_lt small)
        obtain ⟨fuel, t, moves, dropped⟩ := always ⟨[], junk⟩
        rw [Range.ends, read] at moves
        exact absurd dropped (idle moves)
    | startingAt a =>
      by_cases small : a < 1000
      · obtain ⟨fuel, t, moves, dropped⟩ := always ⟨[], []⟩
        rw [Range.ends, readNumber_small small] at moves
        exact absurd dropped (linked.not_dropped_rest least order moves)
      · obtain ⟨junk, read⟩ := wrong (Nat.le_of_not_lt small)
        obtain ⟨fuel, t, moves, -, -, -, -, count⟩ := always ⟨junk, []⟩
        rw [Range.ends, read] at moves
        obtain rfl := dropLoop_idle (fun _ _ => by omega) (fun h => absurd rfl h)
          (fun h => absurd rfl h) moves
        simp only [Range.first, Range.last] at count order
        omega
    | upTo b =>
      have small : b < 1000 := by
        by_contra large
        obtain ⟨junk, read⟩ := wrong (Nat.le_of_not_lt large)
        obtain ⟨fuel, t, moves, dropped⟩ := always ⟨[], junk⟩
        rw [Range.ends, read] at moves
        exact absurd dropped (idle moves)
      refine ⟨b, rfl, small, ?_⟩
      obtain ⟨fuel, t, moves, -, -, -, -, count⟩ := always ⟨[], []⟩
      rw [Range.ends, readNumber_small small] at moves
      obtain ⟨k, fewer, half⟩ := dropLoop_half moves
      simp only [Range.first, Range.last] at count fewer half least order
      omega
    | whole =>
      obtain ⟨fuel, t, moves, -, -, -, -, count⟩ := always ⟨[], []⟩
      obtain rfl := dropLoop_idle (fun _ h => absurd rfl h) (fun h => absurd rfl h)
        (fun h => absurd rfl h) moves
      simp only [Range.first, Range.last] at count order
      omega
  · rintro ⟨b, rfl, small, half⟩ scratch
    simp only [Range.first, Range.last, Range.ends, readNumber_small small] at least order most ⊢
    obtain ⟨fuel, t, goes, mem, path, live, count⟩ := @dropLoop_front
      { s with changes := incr s.changes } nodes 0 b linked.path linked.nodup linked.null
      linked.live counted most (by omega) (by omega)
    rw [zero_add] at goes
    refine ⟨fuel, t, goes, nodes.drop b, ⟨mem ▸ path, fun zero => linked.null
      (mem_of_mem_drop zero)⟩, live, ?_, by omega⟩
    rw [mem, map_drop]
    rfl

/-- A file of three lines. -/
theorem load_three : ∃ s nodes,
    blank.readFile zeroMemory [97, 10, 98, 10, 99] [⟨8, 0⟩, ⟨16, 0⟩, ⟨24, 0⟩] = some s ∧
    s.Linked nodes 0 ∧ nodes.length = 3 := by
  have count : (blank.readFile zeroMemory [97, 10, 98, 10, 99] [⟨8, 0⟩, ⟨16, 0⟩, ⟨24, 0⟩]).map
      Contents.count = some 3 := by
    decide +kernel
  obtain ⟨s, loads, count⟩ := map_eq_some_iff.mp count
  obtain ⟨nodes, linked⟩ := Contents.readFile_linked loads rfl
  have := linked.count
  exact ⟨s, nodes, loads, linked, by omega⟩

theorem drop_exact_iff_upTo : ∃ s nodes,
    blank.readFile zeroMemory [97, 10, 98, 10, 99] [⟨8, 0⟩, ⟨16, 0⟩, ⟨24, 0⟩] = some s ∧
    ∀ scratch, ∃ fuel t, s.drop (convertRange scratch (Range.upTo 2).text).1
      (convertRange scratch (Range.upTo 2).text).2 fuel = some t ∧ s.Dropped t nodes 1 2 := by
  obtain ⟨s, nodes, loads, linked, length⟩ := load_three
  exact ⟨s, nodes, loads, (@drop_exact_iff s nodes linked (.upTo 2) (by decide)
    (Nat.le_succ 1) (by rw [length]; decide)).mpr ⟨2, rfl, by decide, by omega⟩⟩

/-- `DROP 2` of three lines counts two lines less. -/
theorem drop_counts_two : ∃ s nodes,
    blank.readFile zeroMemory [97, 10, 98, 10, 99] [⟨8, 0⟩, ⟨16, 0⟩, ⟨24, 0⟩] = some s ∧
    s.Linked nodes 0 ∧ nodes.length = 3 ∧ ∀ scratch fuel t,
      s.drop (convertRange scratch (Range.line 2).text).1
        (convertRange scratch (Range.line 2).text).2 fuel = some t → ¬s.Dropped t nodes 2 2 := by
  obtain ⟨s, nodes, loads, linked, length⟩ := load_three
  refine ⟨s, nodes, loads, linked, length, fun scratch fuel t moves => ?_⟩
  rw [convertRange_text, Range.ends, readNumber_small (by decide)] at moves
  exact linked.not_dropped_both (by decide) (Nat.le_refl 2) (by omega) moves

end Xv6.Xvedit
