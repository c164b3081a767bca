import Xv6.Lib.Prog

/-!
# Rules for code over any monad

Code that is written over an interface runs in more than one monad. What it needs of each is a
condition on the states before it for a condition on its result, with the rules for sequences.
Code between two points and programs with locks both have such conditions.
-/

namespace Xv6.Lib

variable {σ ℓ ε : Type}

/-- Conditions on the states from which code ends as a postcondition says. -/
structure Logic (m : Type → Type) [Monad m] (σ : Type) where
  Wp : {α : Type} → m α → (α → σ → Prop) → σ → Prop
  pure : ∀ {α : Type} {value : α} {post : α → σ → Prop} {state : σ}, post value state →
    Wp (Pure.pure value) post state
  bind : ∀ {α β : Type} {code : m α} {next : α → m β} {post : β → σ → Prop} {state : σ},
    Wp code (fun value later => Wp (next value) post later) state → Wp (code >>= next) post state

/-- The rules for code between two points. -/
def Act.logic (panics : ε → Prop) : Logic (Act σ ε) σ where
  Wp := Act.Ok panics
  pure met := met
  bind := Act.ok_bind.mpr

/-- The rules for programs with locks. -/
def Prog.logic [DecidableEq ℓ] (panics : ε → Prop) (deadlocks : ℓ → Prop) :
    Logic (Prog σ ℓ ε) (σ × List ℓ) where
  Wp code post state :=
    Prog.Wp panics deadlocks code (fun value later held => post value (later, held)) state.1 state.2
  pure met := met
  bind := Prog.wp_bind.mpr

/-- What the rules derive holds of the run. -/
theorem Prog.wp_of_logic [DecidableEq ℓ] {α : Type} {panics : ε → Prop} {deadlocks : ℓ → Prop}
    {code : Prog σ ℓ ε α} {post : α → σ → List ℓ → Prop} {state : σ} {held : List ℓ}
    (wp : (Prog.logic panics deadlocks).Wp code (fun value later => post value later.1 later.2)
      (state, held)) : Prog.Wp panics deadlocks code post state held := wp

end Xv6.Lib
