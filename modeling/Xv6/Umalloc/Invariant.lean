import Mathlib.Data.List.Nodup
import Mathlib.Data.List.Perm.Subperm
import Xv6.Lib.Path
import Xv6.Lib.Run
import Xv6.Lib.Tiles
import Xv6.Umalloc.Malloc

/-!
# The heap invariant

The free blocks form a cycle in the order of addresses, with a gap between any two of them, and
together with the live blocks they tile the memory up to the break. `free` first makes out of the
freed block and its right neighbour one loose block (`Loose`), then links or joins that to the left.
-/

namespace Xv6.Umalloc

open Function Lib List
open Vm (kernbase uintSize)

variable {program : Program} {s : Heap} {p bp q fuel b : Nat} {ring live : List Nat} {a : Nat}
  {x y : List Nat} {h : Header}

namespace Heap

/-- `p->s.ptr`. -/
def next (s : Heap) (p : Nat) : Nat := (s.mem p).ptr

/-- The bytes of a block. -/
def len (s : Heap) (p : Nat) : Nat := 8 * (s.mem p).size

@[simp] theorem next_write (h : Header) : (s.write p h).next = update s.next p h.ptr := by
  funext a
  by_cases same : a = p
  · subst same
    simp [next, write]
  · simp [next, write, same]

@[simp] theorem len_write (h : Header) : (s.write p h).len = update s.len p (8 * h.size) := by
  funext a
  by_cases same : a = p
  · subst same
    simp [len, write]
  · simp [len, write, same]

end Heap

/-- The blocks: those in the list other than `base`, and the live ones. -/
def blocks (program : Program) (ring live : List Nat) : Set Nat :=
  {a | (a ∈ ring ∧ a ≠ program.base) ∨ a ∈ live}

/-- A block leaves the list and is no block any more. -/
theorem mem_blocks_remove (nodup : (x ++ q :: y).Nodup) (off : q ∉ live) :
    a ∈ blocks program (x ++ y) live ↔ a ∈ blocks program (x ++ q :: y) live \ {q} := by
  grind [blocks]

/-- A live block is no block any more. -/
theorem mem_blocks_drop (off : b ∉ ring) (once : b ∉ live) :
    a ∈ blocks program ring live ↔ a ∈ blocks program ring (b :: live) \ {b} := by
  grind [blocks]

/-- A block of the list is a live one. -/
theorem mem_blocks_move (ne : b ≠ program.base) :
    a ∈ blocks program (x ++ b :: y) live ↔ a ∈ blocks program (x ++ y) (b :: live) := by
  grind [blocks]

/-- The invariant of the heap, with the list from `base` on and the headers of the live blocks. -/
structure Inv (program : Program) (s : Heap) (ring live : List Nat) : Prop where
  path : Path s.next program.base ring program.base
  freep : s.freep ∈ ring
  spaced : ring.Pairwise fun a b => a + s.len a < b
  empty : s.len program.base = 0
  tiles : Tiles program.start s.brk (blocks program ring live) s.len
  apart : ∀ a ∈ live, a ∉ ring
  once : live.Nodup
  above : program.start ≤ s.brk
  limit : s.brk < kernbase

namespace Inv

variable (inv : Inv program s ring live)

include inv

theorem sorted : ring.Pairwise (· < ·) :=
  inv.spaced.imp fun gap => lt_of_le_of_lt (Nat.le_add_right _ _) gap

theorem nodup : ring.Nodup := inv.sorted.imp ne_of_lt

theorem base_mem : program.base ∈ ring := by
  have nonempty := ne_nil_of_mem inv.freep
  have path := inv.path
  cases ring with
  | nil => exact absurd rfl nonempty
  | cons a ring => exact path.1 ▸ mem_cons_self

/-- Where a live block lies. -/
theorem live_inside (member : a ∈ live) : program.start ≤ a ∧ a + s.len a ≤ s.brk :=
  inv.tiles.inside (.inr member)

/-- Where a free block lies. -/
theorem free_inside (member : a ∈ ring) (ne : a ≠ program.base) :
    program.start ≤ a ∧ a + s.len a ≤ s.brk :=
  inv.tiles.inside (.inl ⟨member, ne⟩)

theorem base_le (member : a ∈ ring) : program.base ≤ a := by
  by_cases same : a = program.base
  · exact le_of_eq same.symm
  · have inside := inv.free_inside member same
    have := program.base_below
    omega

/-- What is behind the break or before the heap is not in the list. -/
theorem below (member : a ∈ ring) : a + s.len a ≤ s.brk := by
  by_cases same : a = program.base
  · have above := inv.above
    have := program.base_below
    rw [same, inv.empty]
    omega
  · exact (inv.free_inside member same).2

theorem next_mem (member : a ∈ ring) : s.next a ∈ ring := by
  obtain ⟨l, r, rfl⟩ := append_of_mem member
  rw [inv.path.next_eq]
  cases r with
  | nil => exact inv.base_mem
  | cons b r => simp

/-- The heap is the same to the list and the live blocks. -/
theorem congr {t : Heap} (next : ∀ a ∈ ring, t.next a = s.next a)
    (len : ∀ a, a ∈ ring ∨ a ∈ live → t.len a = s.len a) (freep : t.freep ∈ ring)
    (brk : t.brk = s.brk) : Inv program t ring live where
  path := inv.path.congr next
  freep := freep
  spaced := by
    refine inv.spaced.imp_of_mem fun first _ gap => ?_
    rwa [len _ (.inl first)]
  empty := by rw [len _ (.inl inv.base_mem), inv.empty]
  tiles := by
    rw [brk]
    refine inv.tiles.congr (fun _ => Iff.rfl) fun a member => len a ?_
    exact member.imp_left And.left
  apart := inv.apart
  once := inv.once
  above := brk ▸ inv.above
  limit := brk ▸ inv.limit

end Inv

theorem advance_eq {n : Nat} (inside : p + 8 * n < uintSize) : advance p n = p + 8 * n :=
  Nat.mod_eq_of_lt inside

/-! ## The loop of `free` -/

/-- The loop passes the blocks where it does not end. -/
theorem place_skip {m : List Nat} (path : Path s.next p m q)
    (passes : ∀ a ∈ m, ends bp a (s.next a) = false) :
    place s bp (m.length + fuel) p = place s bp fuel q := by
  induction m generalizing p with
  | nil =>
    obtain rfl := path
    rw [length_nil, zero_add]
  | cons a m ih =>
    obtain ⟨rfl, path⟩ := path
    have pass := passes p mem_cons_self
    rw [length_cons, Nat.add_right_comm, place]
    rw [Heap.next] at pass path
    rw [if_neg (by simp [pass]), ih path fun b member => passes b (mem_cons_of_mem _ member)]

section Free

variable {l r : List Nat}

/-- The list around an address that is not in it. -/
theorem split_at (sorted : ring.Pairwise (· < ·)) (off : bp ∉ ring) :
    ∃ l r, ring = l ++ r ∧ (∀ a ∈ l, a < bp) ∧ ∀ a ∈ r, bp < a := by
  induction ring with
  | nil => exact ⟨[], [], rfl, by simp, by simp⟩
  | cons c ring ih =>
    obtain ⟨first, sorted⟩ := pairwise_cons.mp sorted
    rw [mem_cons, not_or] at off
    by_cases order : c < bp
    · grind
    · have order : bp < c := by omega
      refine ⟨[], c :: ring, rfl, by simp, ?_⟩
      exact List.forall_mem_cons.mpr ⟨order, fun a member => order.trans (first a member)⟩

/-- `bp` goes between `p` and the blocks of `r`. -/
structure Around (bp : Nat) (l : List Nat) (p : Nat) (r : List Nat) : Prop where
  lower : ∀ a ∈ l, a < bp
  here : p < bp
  upper : ∀ a ∈ r, bp < a

section Place

variable (inv : Inv program s (l ++ p :: r) live) (around : Around bp l p r)

include inv around

theorem base_lt : program.base < bp :=
  lt_of_le_of_lt (inv.base_le (a := p) (by simp)) around.here

theorem ends_lower (member : a ∈ l) : ends bp a (s.next a) = false := by
  have follows : a < s.next a ∧ s.next a < bp := by
    obtain ⟨x, y, rfl⟩ := append_of_mem member
    have path := inv.path
    have sorted := inv.sorted
    rw [append_assoc, cons_append] at path sorted
    have order := (pairwise_cons.mp (pairwise_append.mp sorted).2.1).1
    rw [path.next_eq]
    cases y with
    | nil => exact ⟨order p (by simp), around.here⟩
    | cons b y => exact ⟨order b (by simp), around.lower b (by simp)⟩
  simp only [ends, Bool.or_eq_false_iff, Bool.and_eq_false_iff, decide_eq_false_iff_not]
  omega

theorem ends_upper (member : a ∈ r) : ends bp a (s.next a) = false := by
  have first := around.upper a member
  have least := base_lt inv around
  have follows : a < s.next a ∨ s.next a = program.base := by
    obtain ⟨x, y, rfl⟩ := append_of_mem member
    have path := inv.path
    have sorted := inv.sorted
    rw [append_cons, ← append_assoc] at path sorted
    have order := (pairwise_cons.mp (pairwise_append.mp sorted).2.1).1
    rw [path.next_eq]
    cases y with
    | nil => exact .inr rfl
    | cons b y => exact .inl (order b (by simp))
  simp only [ends, Bool.or_eq_false_iff, Bool.and_eq_false_iff, decide_eq_false_iff_not]
  omega

theorem ends_here : ends bp p (s.next p) = true := by
  have follows : s.next p = program.base ∨ bp < s.next p := by
    rw [inv.path.next_eq]
    cases r with
    | nil => exact .inl rfl
    | cons b r => exact .inr (around.upper b (by simp))
  have before := around.here
  have base := inv.base_le (a := p) (by simp)
  simp only [ends, Bool.or_eq_true, Bool.and_eq_true, decide_eq_true_eq]
  omega

/-- From where `freep` points, the loop passes blocks along the cycle up to `p`. -/
theorem path_to : ∃ m, Path s.next s.freep m p ∧ (∀ a ∈ m, ends bp a (s.next a) = false) ∧
    m.length < (l ++ p :: r).length := by
  obtain ⟨_, before, rfl, after⟩ := path_append.mp inv.path
  rcases mem_append.mp inv.freep with member | member
  · obtain ⟨x, y, rfl⟩ := append_of_mem member
    obtain ⟨_, -, here, rest⟩ := path_append.mp before
    refine ⟨s.freep :: y, ⟨rfl, rest⟩, fun a inside => ends_lower inv around ?_, ?_⟩
    · exact mem_append_right _ inside
    · simp only [length_append, length_cons]
      omega
  · rcases mem_cons.mp member with same | member
    · refine ⟨[], same, fun a inside => absurd inside not_mem_nil, ?_⟩
      rw [length_append]
      exact lt_of_lt_of_le (Nat.succ_pos _) (Nat.le_add_left _ _)
    · obtain ⟨x, y, rfl⟩ := append_of_mem member
      obtain ⟨_, -, here, rest⟩ := path_append.mp after
      refine ⟨s.freep :: y ++ l, path_append.mpr ⟨_, ⟨rfl, rest⟩, before⟩, ?_, ?_⟩
      all_goals grind [ends_upper, ends_lower]

/-- The loop of `free` finds the last block before `bp`. -/
theorem place_ok (enough : (l ++ p :: r).length ≤ fuel) : place s bp fuel s.freep = some p := by
  obtain ⟨m, path, passes, short⟩ := path_to inv around
  obtain ⟨rest, rfl⟩ := Nat.exists_eq_add_of_lt (lt_of_lt_of_le short enough)
  rw [add_assoc, place_skip path passes, place, if_pos]
  exact ends_here inv around

end Place

/-! ## What `free` does at that place -/

/-- The block `bp` is in no list; the list is open behind `p`, and goes on where `bp` points. -/
structure Loose (program : Program) (s : Heap) (l : List Nat) (p : Nat) (r : List Nat) (bp : Nat)
    (live : List Nat) : Prop where
  before : ∃ q, Path s.next program.base (l ++ [p]) q
  after : Path s.next (s.next bp) r program.base
  spaced : (l ++ p :: r).Pairwise fun a b => a + s.len a < b
  left : ∀ a ∈ l, a + s.len a < bp
  here : p < bp ∧ p + s.len p ≤ bp
  right : ∀ a ∈ r, bp + s.len bp < a
  empty : s.len program.base = 0
  tiles : Tiles program.start s.brk (blocks program (l ++ p :: r) (bp :: live)) s.len
  apart : ∀ a ∈ live, a ∉ l ++ p :: r
  once : (bp :: live).Nodup
  above : program.start ≤ s.brk
  limit : s.brk < kernbase

section JoinNext

variable (inv : Inv program s (l ++ p :: r) (bp :: live)) (around : Around bp l p r)

include inv around

/-- The blocks of the list before `bp`. -/
theorem gap_left : (∀ a ∈ l, a + s.len a < bp) ∧ p + s.len p ≤ bp := by
  constructor
  · intro a member
    have gap := (pairwise_append.mp inv.spaced).2.2 a member p mem_cons_self
    exact gap.trans around.here
  · by_cases base : p = program.base
    · rw [base, inv.empty, add_zero, ← base]
      exact le_of_lt around.here
    · exact inv.tiles.apart p (.inl ⟨by simp, base⟩) bp (.inr (by simp)) around.here

/-- `bp` is linked to the rest of the list, and has the length `n`. -/
theorem loose {r' : List Nat} (rest : r'.Sublist r) (after : Path s.next h.ptr r' program.base)
    (right : ∀ a ∈ r', bp + 8 * h.size < a)
    (tiles : Tiles program.start s.brk (blocks program (l ++ p :: r') (bp :: live))
      (update s.len bp (8 * h.size))) : Loose program (s.write bp h) l p r' bp live := by
  have off : bp ∉ l ++ p :: r := inv.apart bp mem_cons_self
  have sub : (l ++ p :: r').Sublist (l ++ p :: r) := (rest.cons_cons p).append_left l
  have off' : bp ∉ l ++ p :: r' := fun member => off (sub.subset member)
  have keep {a : Nat} (member : a ∈ l ++ p :: r') :
      (s.write bp h).len a = s.len a := by
    rw [Heap.len_write, update_of_ne (ne_of_mem_of_not_mem member off')]
  obtain ⟨left, here⟩ := gap_left inv around
  constructor
  · obtain ⟨_, before, same, -⟩ := path_append.mp inv.path
    refine ⟨s.next p, ?_⟩
    rw [Heap.next_write]
    refine Path.update (path_append.mpr ⟨p, same ▸ before, rfl, rfl⟩) fun member => off' ?_
    rw [append_cons]
    exact mem_append_left _ member
  · rw [Heap.next_write, update_self]
    exact after.update fun member => off' (by simp [member])
  · refine (inv.spaced.sublist sub).imp_of_mem fun first _ gap => ?_
    rwa [keep first]
  · intro a member
    rw [keep (mem_append_left _ member)]
    exact left a member
  · rw [keep (by simp)]
    exact ⟨around.here, here⟩
  · intro a member
    rw [Heap.len_write, update_self]
    exact right a member
  · rw [Heap.len_write, update_of_ne]
    · exact inv.empty
    · exact ne_of_lt (base_lt inv around)
  · rw [Heap.len_write]
    exact tiles
  · exact fun a member inside => inv.apart a (mem_cons_of_mem _ member) (sub.subset inside)
  · exact inv.once
  · exact inv.above
  · exact inv.limit

/-- A block behind `bp` that does not touch it. -/
theorem gap_right (apart : bp + s.len bp ≠ s.next p) (member : a ∈ r) : bp + s.len bp < a := by
  have least := base_lt inv around
  have behind {b : Nat} (member : b ∈ r) : bp + s.len bp ≤ b := by
    have order := around.upper b member
    refine inv.tiles.apart bp (.inr (by simp)) b (.inl ⟨by simp [member], ?_⟩) order
    omega
  have follows := inv.path.next_eq
  have spaced := (pairwise_cons.mp (pairwise_append.mp inv.spaced).2.1).2
  cases r with
  | nil => exact absurd member not_mem_nil
  | cons q r =>
    grind [pairwise_cons, cases Inv]

/-- What is written if `bp` and the block behind it touch. -/
theorem joinNext_touch (follows : s.next p = q) (member : q ∈ r) (touch : bp + s.len bp = q) :
    joinNext s p bp = s.write bp ⟨s.next q, (s.mem bp).size + (s.mem q).size⟩ := by
  have least := base_lt inv around
  have inside := inv.free_inside (a := q) (by simp [member]) (by omega)
  have limit := inv.limit
  grind [kernbase, Heap.len, advance, uintSize, Heap.next, joinNext]

omit around in
/-- What is written if they do not. -/
theorem joinNext_apart (apart : bp + s.len bp ≠ s.next p) :
    joinNext s p bp = s.write bp ⟨s.next p, (s.mem bp).size⟩ := by
  have inside := inv.live_inside mem_cons_self
  have limit := inv.limit
  rw [kernbase] at limit
  have stop : advance bp (s.mem bp).size = bp + s.len bp :=
    advance_eq (by rw [uintSize]; rw [Heap.len] at inside; omega)
  rw [joinNext]
  dsimp only
  rw [stop]
  exact if_neg apart

/-- `bp` is joined to the block behind it if they touch. -/
theorem joinNext_ok : ∃ r', r'.Sublist r ∧ Loose program (joinNext s p bp) l p r' bp live ∧
    s.len bp ≤ (joinNext s p bp).len bp := by
  have least := base_lt inv around
  by_cases touch : bp + s.len bp = s.next p
  · -- the block behind `bp` leaves the list
    have follows := inv.path.next_eq
    cases r with
    | nil =>
      have : s.next p = program.base := follows
      omega
    | cons q r =>
      have follows : s.next p = q := follows
      have other : q ≠ program.base := by omega
      have rest : r.Sublist (q :: r) := sublist_cons_self q r
      have spaced := (pairwise_append.mp inv.spaced).2.1
      have sum : 8 * ((s.mem bp).size + (s.mem q).size) = s.len bp + s.len q := Nat.mul_add _ _ _
      rw [follows] at touch
      rw [joinNext_touch inv around follows mem_cons_self touch]
      refine ⟨r, rest, loose inv around rest ?_ ?_ ?_, ?_⟩
      · obtain ⟨_, -, -, -, after⟩ := path_append.mp inv.path
        exact after
      · intro a behind
        have gap := (pairwise_cons.mp (pairwise_cons.mp spaced).2).1 a behind
        rw [sum]
        omega
      · rw [sum]
        have merged := inv.tiles.merge (.inr mem_cons_self) (.inl ⟨by simp, other⟩) touch
        refine merged.congr (fun a => ?_) fun _ _ => rfl
        have nodup := inv.nodup
        rw [append_cons] at nodup ⊢
        rw [append_cons l p (q :: r)]
        exact mem_blocks_remove nodup fun live => inv.apart q live (by simp)
      · simp [sum]
  · rw [joinNext_apart inv touch]
    refine ⟨r, Sublist.refl r, loose inv around (Sublist.refl r) ?_ ?_ ?_, ?_⟩
    · obtain ⟨_, -, rfl, after⟩ := path_append.mp inv.path
      exact after
    · exact fun a member => gap_right inv around touch member
    · rw [show 8 * (s.mem bp).size = s.len bp from rfl, update_eq_self]
      exact inv.tiles
    · rw [Heap.len_write, update_self]
      exact le_rfl

end JoinNext

namespace Loose

variable (loose : Loose program s l p r bp live)

include loose

theorem base_ne : bp ≠ program.base := by
  have inside := loose.tiles.inside (.inr mem_cons_self)
  have := program.base_below
  omega

theorem not_mem : bp ∉ l ++ p :: r := by
  grind [cases Loose]

theorem nodup : (l ++ p :: r).Nodup :=
  loose.spaced.imp fun gap => ne_of_lt (lt_of_le_of_lt (Nat.le_add_right _ _) gap)

theorem once_p : p ∉ l := fun member =>
  (List.nodup_cons.mp (nodup_middle.mp loose.nodup)).1 (mem_append_left _ member)

/-- The list is closed again behind `p`. -/
theorem close {rest : List Nat} (after : Path s.next h.ptr rest program.base)
    (gap : ∀ b ∈ rest, p + 8 * h.size < b) (front : ∀ a ∈ l, ∀ b ∈ rest, a + s.len a < b)
    (spaced : rest.Pairwise fun a b => a + s.len a < b) (empty : p = program.base → h.size = 0)
    (tiles : Tiles program.start s.brk (blocks program (l ++ p :: rest) live)
      (update s.len p (8 * h.size))) (apart : ∀ a ∈ live, a ∉ l ++ p :: rest) :
    Inv program { s.write p h with freep := p } (l ++ p :: rest) live where
  path := by
    change Path (s.write p h).next _ _ _
    obtain ⟨q, before⟩ := loose.before
    have off : p ∉ rest := fun member => by
      have := gap p member
      omega
    rw [Heap.next_write, append_cons]
    exact path_append.mpr ⟨h.ptr, before.redirect loose.once_p, after.update off⟩
  freep := by simp
  spaced := by
    change (l ++ p :: rest).Pairwise fun a b => a + (s.write p h).len a < b
    rw [Heap.len_write]
    obtain ⟨first, -, between⟩ := pairwise_append.mp loose.spaced
    have old {a : Nat} (ne : a ≠ p) : update s.len p (8 * h.size) a = s.len a :=
      update_of_ne ne _ _
    have oldLeft {a : Nat} (member : a ∈ l) := old (ne_of_mem_of_not_mem member loose.once_p)
    refine pairwise_append.mpr ⟨?_, pairwise_cons.mpr ⟨?_, ?_⟩, ?_⟩
    · refine first.imp_of_mem fun member _ less => ?_
      rwa [oldLeft member]
    · rwa [update_self]
    · refine spaced.imp_of_mem fun member _ less => ?_
      have := gap _ member
      rwa [old (by omega)]
    grind
  empty := by
    change (s.write p h).len program.base = 0
    rw [Heap.len_write]
    by_cases same : program.base = p
    · rw [same, update_self, empty same.symm]
    · rw [update_of_ne same, loose.empty]
  tiles := by
    change Tiles _ _ _ (s.write p h).len
    rwa [Heap.len_write]
  apart := apart
  once := (List.nodup_cons.mp loose.once).2
  above := loose.above
  limit := loose.limit

/-- What is written if `bp` and the block before it touch. -/
theorem joinPrev_touch (touch : p + s.len p = bp) :
    joinPrev s p bp = s.write p ⟨s.next bp, (s.mem p).size + (s.mem bp).size⟩ := by
  have inside := loose.tiles.inside (.inr mem_cons_self)
  have limit := loose.limit
  grind [kernbase, Heap.len, advance, uintSize, joinPrev, Heap.next]

/-- What is written if they do not. -/
theorem joinPrev_apart (apart : p + s.len p ≠ bp) :
    joinPrev s p bp = s.write p ⟨bp, (s.mem p).size⟩ := by
  have inside := loose.tiles.inside (.inr mem_cons_self)
  grind [kernbase, Heap.len, joinPrev, advance_eq, uintSize, cases Loose]

/-- `bp` is joined to the block before it if they touch, and linked behind it if not. -/
theorem joinPrev_ok : ∃ ring, Inv program { joinPrev s p bp with freep := p } ring live ∧
    ring.length ≤ (l ++ p :: r).length + 1 ∧
    ∃ a ∈ ring, s.len bp ≤ (joinPrev s p bp).len a := by
  obtain ⟨-, second, between⟩ := pairwise_append.mp loose.spaced
  obtain ⟨behind, second⟩ := pairwise_cons.mp second
  have front : ∀ a ∈ l, ∀ b ∈ r, a + s.len a < b :=
    fun a first b last => between a first b (mem_cons_of_mem _ last)
  by_cases touch : p + s.len p = bp
  · have sum : 8 * ((s.mem p).size + (s.mem bp).size) = s.len p + s.len bp := Nat.mul_add _ _ _
    have other : p ≠ program.base := by
      intro base
      have here := loose.here.1
      rw [base, loose.empty] at touch
      omega
    rw [loose.joinPrev_touch touch]
    refine ⟨l ++ p :: r, loose.close loose.after ?_ front second (fun base => absurd base other) ?_
      loose.apart, Nat.le_succ _, p, by simp, ?_⟩
    · intro b member
      have gap := loose.right b member
      rw [sum]
      omega
    · rw [sum]
      have merged := loose.tiles.merge (.inl ⟨by simp, other⟩) (.inr mem_cons_self) touch
      refine merged.congr (fun a => ?_) fun _ _ => rfl
      exact mem_blocks_drop loose.not_mem (List.nodup_cons.mp loose.once).1
    · simp [sum]
  · have here := loose.here
    have less : p + s.len p < bp := Nat.lt_of_le_of_ne here.2 touch
    rw [loose.joinPrev_apart touch]
    refine ⟨l ++ p :: bp :: r, loose.close ⟨rfl, loose.after⟩ ?_ ?_ ?_ ?_ ?_ ?_, ?_,
      bp, by simp, ?_⟩
    · refine List.forall_mem_cons.mpr ⟨less, fun b member => ?_⟩
      exact less.trans (lt_of_le_of_lt (Nat.le_add_right _ _) (loose.right b member))
    · exact fun a first => List.forall_mem_cons.mpr ⟨loose.left a first, front a first⟩
    · exact pairwise_cons.mpr ⟨loose.right, second⟩
    · grind [Heap.len, cases Loose]
    · rw [show 8 * (s.mem p).size = s.len p from rfl, update_eq_self]
      refine loose.tiles.congr (fun a => ?_) fun _ _ => rfl
      rw [append_cons, mem_blocks_move loose.base_ne, ← append_cons]
    · intro a member inside
      rw [append_cons, mem_append, mem_cons] at inside
      grind [cases Loose]
    · simp only [length_append, length_cons]
      omega
    · rw [Heap.len_write, update_of_ne (ne_of_gt here.1)]

end Loose

theorem joinNext_len (ne : a ≠ bp) : (joinNext s p bp).len a = s.len a := by
  rw [joinNext]
  dsimp only
  split <;> rw [Heap.len_write, update_of_ne ne]

theorem joinPrev_len (ne : a ≠ p) : (joinPrev s p bp).len a = s.len a := by
  rw [joinPrev]
  split <;> rw [Heap.len_write, update_of_ne ne]

theorem joinNext_brk : (joinNext s p bp).brk = s.brk := by
  rw [joinNext]
  dsimp only
  split <;> rfl

theorem joinPrev_brk : (joinPrev s p bp).brk = s.brk := by
  rw [joinPrev]
  split <;> rfl

/-- There are no more blocks than addresses up to the break. -/
theorem Inv.length_le (inv : Inv program s ring live) : ring.length ≤ s.brk + 1 := by
  have sub : ring ⊆ range (s.brk + 1) := by
    intro a member
    have below := inv.below member
    rw [mem_range]
    omega
  have short := (subperm_of_subset inv.nodup sub).length_le
  rwa [length_range] at short

/-- The place of a live block in the list. -/
theorem Inv.around (inv : Inv program s ring (bp :: live)) :
    ∃ l p r, ring = l ++ p :: r ∧ Around bp l p r := by
  have off := inv.apart bp mem_cons_self
  have least : program.base < bp := by
    have inside := inv.live_inside mem_cons_self
    have := program.base_below
    omega
  obtain ⟨l, r, rfl, lower, upper⟩ := split_at inv.sorted off
  rcases eq_nil_or_concat l with rfl | ⟨l, p, rfl⟩
  · have := upper program.base (by simpa using inv.base_mem)
    omega
  · rw [concat_eq_append] at *
    refine ⟨l, p, r, by simp, fun a member => lower a (by simp [member]), lower p (by simp), upper⟩

/-- `free` of a live block. -/
theorem free_ok (inv : Inv program s ring (bp :: live)) :
    ∃ t ring', free s (bp + 8) = some t ∧ Inv program t ring' live ∧ t.brk = s.brk ∧
      (∀ a ∈ live, t.len a = s.len a) ∧ ring'.length ≤ ring.length + 1 ∧
      ∃ a ∈ ring', s.len bp ≤ t.len a := by
  have header : (bp + 8 + (uintSize - 8)) % uintSize = bp := by
    have inside := inv.live_inside mem_cons_self
    have limit := inv.limit
    rw [kernbase] at limit
    rw [uintSize]
    omega
  obtain ⟨l, p, r, rfl, around⟩ := inv.around
  obtain ⟨r', sub, loose, longer⟩ := joinNext_ok inv around
  obtain ⟨ring', later, short, a, member, large⟩ := loose.joinPrev_ok
  refine ⟨_, ring', ?_, later, ?_, ?_, ?_, a, member, longer.trans large⟩
  · rw [free]
    dsimp only
    rw [header, place_ok inv around inv.length_le]
    rfl
  · exact joinPrev_brk.trans joinNext_brk
  · intro a member
    have notHere : a ≠ p := fun same => loose.apart a member (by simp [same])
    have other := ne_of_mem_of_not_mem member (List.nodup_cons.mp inv.once).1
    exact (joinPrev_len notHere).trans (joinNext_len other)
  · have fewer := sub.length_le
    simp only [length_append, length_cons] at short ⊢
    omega

end Free

end Xv6.Umalloc
