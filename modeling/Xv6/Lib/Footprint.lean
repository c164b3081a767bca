import Mathlib.Init

/-!
# Footprints

State-passing code that records in its state what it touches. `Stays` bounds the record: whatever
state the code starts in, each new entry lies in a region, and the result meets a condition. The
rules follow the code, so that a bound on a whole handler is read off its statements.
-/

namespace Xv6.Lib

variable {σ ι α β : Type} {trace : σ → List ι} {region : ι → Prop}

/-- Code in sequence runs the second part from where the first ends. -/
theorem run_bind (act : StateM σ α) (next : α → StateM σ β) (state : σ) :
    (act >>= next) state = next (act state).1 (act state).2 := rfl

/-- Returning a value leaves the state alone. -/
theorem run_pure (value : α) (state : σ) : (Pure.pure value : StateM σ α) state = (value, state) :=
  rfl

/-- The code touches only the region, and its result meets the condition. -/
def Stays (trace : σ → List ι) (region : ι → Prop) (act : StateM σ α) (post : α → Prop) : Prop :=
  ∀ state, post (act state).1 ∧ ∀ i ∈ trace (act state).2, i ∈ trace state ∨ region i

namespace Stays

variable {act : StateM σ α} {post weaker : α → Prop} {final : β → Prop}

/-- A returned value touches nothing. -/
theorem pure {value : α} (met : post value) : Stays trace region (Pure.pure value) post :=
  fun _ => ⟨met, fun _ touched => .inl touched⟩

/-- One action after another. -/
theorem bind {next : α → StateM σ β} (first : Stays trace region act post)
    (rest : ∀ value, post value → Stays trace region (next value) final) :
    Stays trace region (act >>= next) final := by
  intro state
  obtain ⟨met, early⟩ := first state
  obtain ⟨ended, late⟩ := rest _ met (act state).2
  refine ⟨ended, fun i touched => ?_⟩
  rcases late i touched with before | inside
  · exact early i before
  · exact .inr inside

/-- A change of the result touches nothing more. -/
theorem map {change : α → β} (stays : Stays trace region act post)
    (met : ∀ value, post value → final (change value)) :
    Stays trace region (change <$> act) final :=
  fun state => ⟨met _ (stays state).1, (stays state).2⟩

/-- A branch. -/
theorem ite {condition : Prop} [Decidable condition] {no : StateM σ α}
    (yes : condition → Stays trace region act post)
    (otherwise : ¬ condition → Stays trace region no post) :
    Stays trace region (if condition then act else no) post := by
  split
  · exact yes ‹_›
  · exact otherwise ‹_›

end Stays

end Xv6.Lib
