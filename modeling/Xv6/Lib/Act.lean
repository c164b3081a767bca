import Mathlib.Init

/-!
# Code that ends or panics

Code that neither waits nor gives up the processor is a function from the state to a value and a
later state, or to a panic. `Act.Ok` says that a run that ends meets a condition and that a run
that panics does so with an expected panic. The simp set turns it, statement by statement, into
a condition on the state before.
-/

namespace Xv6.Lib

variable {σ ε α β : Type} {post : α → σ → Prop} {more : ε → Prop}

/-- Code over a state that may panic. -/
abbrev Act (σ ε α : Type) : Type := StateT σ (Except ε) α

namespace Act

/-- A run that ends meets the condition; a run that panics does so as expected. -/
def Ok (panics : ε → Prop) (act : Act σ ε α) (post : α → σ → Prop) (state : σ) : Prop :=
  match act state with
  | .ok (value, later) => post value later
  | .error error => panics error

variable {panics : ε → Prop} {act : Act σ ε α} {next : α → Act σ ε β} {state : σ}

/-- Returning a value. -/
@[simp] theorem ok_pure {value : α} :
    Ok panics (pure value) post state ↔ post value state := Iff.rfl

/-- One action after another. -/
@[simp] theorem ok_bind {post : β → σ → Prop} :
    Ok panics (act >>= next) post state ↔
      Ok panics act (fun value later => Ok panics (next value) post later) state := by
  simp only [Ok, bind, StateT.bind, Except.bind]
  cases act state <;> rfl

/-- Reading the state. -/
@[simp] theorem ok_get {post : σ → σ → Prop} :
    Ok panics (get : Act σ ε σ) post state ↔ post state state := Iff.rfl

/-- Replacing the state. -/
@[simp] theorem ok_set {later : σ} {post : PUnit → σ → Prop} :
    Ok panics (set later : Act σ ε PUnit) post state ↔ post ⟨⟩ later := Iff.rfl

/-- Changing the state. -/
@[simp] theorem ok_modify {change : σ → σ} {post : PUnit → σ → Prop} :
    Ok panics (modify change : Act σ ε PUnit) post state ↔ post ⟨⟩ (change state) := Iff.rfl

/-- A panic. -/
@[simp] theorem ok_throw {error : ε} :
    Ok panics (throw error : Act σ ε α) post state ↔ panics error := Iff.rfl

/-- A branch. -/
@[simp] theorem ok_ite {condition : Prop} [Decidable condition] {yes no : Act σ ε α} :
    Ok panics (if condition then yes else no) post state ↔
      if condition then Ok panics yes post state else Ok panics no post state := by
  split <;> rfl

/-- Code over a part of the state. -/
def zoom {τ : Type} (view : τ → σ) (update : τ → σ → τ) (act : Act σ ε α) : Act τ ε α :=
  fun state =>
  match act (view state) with
  | .ok (value, part) => .ok (value, update state part)
  | .error error => .error error

/-- An action on a part of the state. -/
@[simp] theorem ok_zoom {τ : Type} {view : τ → σ} {update : τ → σ → τ} {whole : τ}
    {post : α → τ → Prop} :
    Ok panics (zoom view update act) post whole ↔
      Ok panics act (fun value part => post value (update whole part)) (view whole) := by
  unfold Ok zoom
  cases act (view whole) <;> rfl

/-- A weaker condition is met too. -/
theorem Ok.mono {weaker : α → σ → Prop} (ok : Ok panics act post state)
    (weaken : ∀ value later, post value later → weaker value later) :
    Ok panics act weaker state := by
  unfold Ok at *
  split at ok
  · exact weaken _ _ ok
  · exact ok

/-- Without a condition, all is expected. -/
theorem ok_trivial : Ok (fun _ => True) act (fun _ _ => True) state := by
  unfold Ok
  split
  · trivial
  · trivial

/-- More panics may be expected. -/
theorem Ok.weaken (ok : Ok panics act post state) (expected : ∀ error, panics error → more error) :
    Ok more act post state := by
  unfold Ok at *
  split at ok
  · exact ok
  · exact expected _ ok

/-- Both of two conditions are met; the second may allow for other panics. -/
theorem Ok.and {other : α → σ → Prop} (ok : Ok panics act post state)
    (also : Ok more act other state) :
    Ok panics act (fun value later => post value later ∧ other value later) state := by
  unfold Ok at *
  split at ok
  · rename_i found
    rw [found] at also
    exact ⟨ok, also⟩
  · exact ok

/-- A loop over a list keeps an invariant of the elements left. -/
theorem ok_forM {ι : Type} {body : ι → Act σ ε PUnit} (inv : List ι → σ → Prop) {list : List ι}
    (start : inv list state) (iteration : ∀ element rest state, inv (element :: rest) state →
      Ok panics (body element) (fun _ later => inv rest later) state) :
    Ok panics (list.forM body) (fun _ later => inv [] later) state := by
  induction list generalizing state with
  | nil => exact start
  | cons element rest ih =>
    show Ok panics (body element >>= fun _ => rest.forM body) _ state
    rw [ok_bind]
    exact (iteration element rest state start).mono fun _ later kept => ih kept

end Act

end Xv6.Lib
