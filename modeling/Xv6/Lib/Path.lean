import Mathlib.Logic.Function.Basic

/-!
# Paths of pointers

`Path next p l q`: from `p`, following `next` visits the listed cells and arrives at `q`. A path
only depends on the pointers of the cells it visits, and where it ends is free: at a null pointer
for a list, at its own start for a cycle.
-/

namespace Xv6.Lib

open Function List

variable {α : Type}

/-- Following `next` from `p` visits the listed cells and arrives at `q`. -/
def Path (next : α → α) : α → List α → α → Prop
  | p, [], q => p = q
  | p, a :: rest, q => p = a ∧ Path next (next a) rest q

instance Path.decidable [DecidableEq α] (next : α → α) :
    (p : α) → (l : List α) → (q : α) → Decidable (Path next p l q)
  | p, [], q => inferInstanceAs (Decidable (p = q))
  | p, a :: rest, q =>
    have := Path.decidable next (next a) rest q
    inferInstanceAs (Decidable (p = a ∧ Path next (next a) rest q))

variable {next later : α → α} {p q r a b : α} {l m : List α}

/-- The empty path. -/
@[simp] theorem path_nil : Path next p [] q ↔ p = q := Iff.rfl

/-- A path begins with its first node. -/
@[simp] theorem path_cons : Path next p (a :: l) q ↔ p = a ∧ Path next (next a) l q := Iff.rfl

/-- A path through two lists. -/
theorem path_append : Path next p (l ++ m) q ↔ ∃ r, Path next p l r ∧ Path next r m q := by
  induction l generalizing p with
  | nil =>
    constructor
    · intro path
      exact ⟨p, rfl, path⟩
    · rintro ⟨_, rfl, path⟩
      exact path
  | cons a l ih => simp only [cons_append, path_cons, ih, and_assoc, exists_and_left]

/-- Other pointers do not matter. -/
theorem Path.congr (path : Path next p l q) (agree : ∀ a ∈ l, later a = next a) :
    Path later p l q := by
  induction l generalizing p with
  | nil => exact path
  | cons a l ih =>
    grind [path_cons]

/-- A path that stops at the first visit of its end is the only one. -/
theorem Path.unique (path : Path next p l q) (other : Path next p m q) (ends : q ∉ l)
    (ends' : q ∉ m) : l = m := by
  induction l generalizing p m with
  | nil =>
    obtain rfl := path
    cases m with
    | nil => rfl
    | cons b m => exact absurd (other.1 ▸ mem_cons_self) ends'
  | cons a l ih =>
    obtain ⟨rfl, path⟩ := path
    cases m with
    | nil => exact absurd (other ▸ mem_cons_self) ends
    | cons b m =>
      grind [Path]

/-- Paths of one length from one cell arrive at one cell. -/
theorem Path.ends_eq (path : Path next p l q) (other : Path next p m r)
    (same : l.length = m.length) : q = r := by
  induction l generalizing p m with
  | nil =>
    obtain rfl := length_eq_zero_iff.mp same.symm
    exact path.symm.trans other
  | cons a l ih =>
    cases m with
    | nil => contradiction
    | cons b m => exact ih path.2 (path.1 ▸ other.1 ▸ other.2) (Nat.succ.inj same)

/-- Where a cell on the path points to: to the next one, or to the end. -/
theorem Path.next_eq (path : Path next p (l ++ a :: m) q) : next a = m.headD q := by
  obtain ⟨_, _, rfl, path⟩ := path_append.mp path
  cases m with
  | nil => exact path
  | cons b m => exact path.1

/-- A cycle seen from another one of its cells. -/
theorem Path.rotate (path : Path next p (l ++ a :: m) p) : Path next (next a) (m ++ l) a := by
  obtain ⟨_, before, rfl, after⟩ := path_append.mp path
  exact path_append.mpr ⟨p, after, before⟩

section Update

variable [DecidableEq α]

/-- The pointer of a cell off the path changes. -/
theorem Path.update (path : Path next p l q) (off : a ∉ l) :
    Path (Function.update next a r) p l q :=
  path.congr fun _ member => update_of_ne (ne_of_mem_of_not_mem member off) _ _

/-- The pointer of the last cell changes. -/
theorem Path.redirect (path : Path next p (l ++ [a]) q) (once : a ∉ l) :
    Path (Function.update next a r) p (l ++ [a]) r := by
  obtain ⟨s, before, rfl, _⟩ := path_append.mp path
  exact path_append.mpr ⟨s, before.update once, rfl, update_self ..⟩

/-- A cell is put in behind another one. -/
theorem Path.insert (path : Path next p (l ++ a :: m) q) (once : a ∉ l) (later : a ∉ m)
    (new : b ∉ l ++ a :: m) :
    Path (Function.update (Function.update next b (next a)) a b) p (l ++ a :: b :: m) q := by
  obtain ⟨s, before, rfl, after⟩ := path_append.mp path
  have other : b ≠ s := fun same => new (by simp [same])
  refine path_append.mpr ⟨s, (before.update fun member => new (by simp [member])).update once,
    rfl, ?_⟩
  rw [update_self]
  refine ⟨rfl, ?_⟩
  rw [update_of_ne other, update_self]
  exact (after.update fun member => new (by simp [member])).update later

/-- The cell behind another one is taken out. -/
theorem Path.remove (path : Path next p (l ++ a :: b :: m) q) (once : a ∉ l) (later : a ∉ m) :
    Path (Function.update next a (next b)) p (l ++ a :: m) q := by
  obtain ⟨s, before, rfl, rfl, after⟩ := path_append.mp path
  refine path_append.mpr ⟨s, before.update once, rfl, ?_⟩
  rw [update_self]
  exact after.update later

end Update

end Xv6.Lib
