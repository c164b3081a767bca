import Xv6.Lib.Act

/-!
# Programs with sleep locks

A program reads and writes a state, panics, and meets the points at which a process can wait or
be overtaken: it acquires or releases a lock, or awaits a condition. `run` executes a program by
itself: waiting for a lock that it holds is a self-deadlock. `Prog.Wp` is the rule set for such
runs, and the simp set reduces it to the conditions of the actions between two points.
-/

namespace Xv6.Lib

/-- A program over states `σ` and locks `ℓ` with panics `ε`. -/
inductive Prog (σ ℓ ε : Type) (α : Type) : Type where
  | ret (value : α)
  | panic (error : ε)
  | get (next : σ → Prog σ ℓ ε α)
  | put (state : σ) (next : Prog σ ℓ ε α)
  /-- Wait until the lock is free and take it. -/
  | acquire (lock : ℓ) (next : Prog σ ℓ ε α)
  | release (lock : ℓ) (next : Prog σ ℓ ε α)
  /-- Ask whether this process holds the lock. -/
  | holding (lock : ℓ) (next : Bool → Prog σ ℓ ε α)
  /-- Wait until the condition holds; another process may run before. -/
  | await (ready : σ → Bool) (next : Prog σ ℓ ε α)

/-- How a program ends when it runs by itself. -/
inductive Outcome (σ ℓ ε α : Type) : Type where
  | done (value : α) (state : σ) (held : List ℓ)
  | panic (error : ε)
  /-- It waits for a lock that it holds itself. -/
  | deadlock (lock : ℓ)
  /-- It waits for a condition that nothing can change. -/
  | asleep

namespace Outcome

variable {σ ℓ ε α : Type} {outcome : Outcome σ ℓ ε α}

/-- The panic that a program ended in. -/
def error? : Outcome σ ℓ ε α → Option ε
  | panic error => some error
  | _ => none

/-- The lock that a program waits for in vain. -/
def waits? : Outcome σ ℓ ε α → Option ℓ
  | deadlock lock => some lock
  | _ => none

/-- The value that a program returned and the state it left. -/
def result? : Outcome σ ℓ ε α → Option (α × σ)
  | done value state _ => some (value, state)
  | _ => none

/-- A run with a result has ended. -/
theorem done_of_result {result : α × σ} (found : outcome.result? = some result) :
    ∃ held, outcome = .done result.1 result.2 held := by
  cases outcome with
  | done value state held => exact ⟨held, by rw [← Option.some.inj found]⟩
  | _ => exact absurd found (by simp [result?])

/-- A run with a value has ended. -/
theorem eq_done {value : α} (found : outcome.result?.map Prod.fst = some value) :
    ∃ state held, outcome = .done value state held := by
  cases outcome with
  | done other state held => exact ⟨state, held, by rw [← Option.some.inj found]⟩
  | _ => exact absurd found (by simp [result?])

/-- A run with an error has panicked. -/
theorem eq_panic {error : ε} (found : outcome.error? = some error) : outcome = .panic error := by
  cases outcome with
  | panic other => rw [Option.some.inj found]
  | _ => exact absurd found (by simp [error?])

/-- A run that waits is stuck. -/
theorem eq_deadlock {lock : ℓ} (found : outcome.waits? = some lock) : outcome = .deadlock lock := by
  cases outcome with
  | deadlock other => rw [Option.some.inj found]
  | _ => exact absurd found (by simp [waits?])

end Outcome

/-- A part of a state that is read and assigned. -/
structure Lens (τ σ : Type) where
  view : τ → σ
  update : τ → σ → τ
  view_update : ∀ whole part, view (update whole part) = part
  update_view : ∀ whole, update whole (view whole) = whole
  update_update : ∀ whole part later, update (update whole part) later = update whole later

namespace Prog

variable {σ ℓ ε α β : Type}

/-- Continue with the value a program returns. -/
def bind (program : Prog σ ℓ ε α) (next : α → Prog σ ℓ ε β) : Prog σ ℓ ε β :=
  match program with
  | ret value => next value
  | panic error => panic error
  | get rest => get fun state => (rest state).bind next
  | put state rest => put state (rest.bind next)
  | acquire lock rest => acquire lock (rest.bind next)
  | release lock rest => release lock (rest.bind next)
  | holding lock rest => holding lock fun held => (rest held).bind next
  | await ready rest => await ready (rest.bind next)

instance : Monad (Prog σ ℓ ε) where
  pure := ret
  bind := bind

instance : LawfulMonad (Prog σ ℓ ε) := by
  refine LawfulMonad.mk' _ ?_ (fun _ _ => rfl) ?_
  · intro α program
    change bind program ret = program
    induction program with
    | ret value => rfl
    | panic error => rfl
    | get rest ih => exact congrArg get (funext ih)
    | put state rest ih => exact congrArg (put state) ih
    | acquire lock rest ih => exact congrArg (acquire lock) ih
    | release lock rest ih => exact congrArg (release lock) ih
    | holding lock rest ih => exact congrArg (holding lock) (funext ih)
    | await ready rest ih => exact congrArg (await ready) ih
  · intro α β γ program first second
    change bind (bind program first) second = bind program fun value => bind (first value) second
    induction program with
    | ret value => rfl
    | panic error => rfl
    | get rest ih => exact congrArg get (funext ih)
    | put state rest ih => exact congrArg (put state) ih
    | acquire lock rest ih => exact congrArg (acquire lock) ih
    | release lock rest ih => exact congrArg (release lock) ih
    | holding lock rest ih => exact congrArg (holding lock) (funext ih)
    | await ready rest ih => exact congrArg (await ready) ih

/-- Code between two points. -/
def lift (act : Act σ ε α) : Prog σ ℓ ε α :=
  get fun state =>
    match act state with
    | .ok (value, later) => put later (ret value)
    | .error error => panic error

instance : MonadLift (Act σ ε) (Prog σ ℓ ε) := ⟨lift⟩

/-- A program over a part of the state. -/
def zoom {τ η : Type} (lens : Lens τ σ) (embed : ε → η) : Prog σ ℓ ε α → Prog τ ℓ η α
  | ret value => ret value
  | panic error => panic (embed error)
  | get next => get fun whole => (next (lens.view whole)).zoom lens embed
  | put part next => get fun whole => put (lens.update whole part) (next.zoom lens embed)
  | acquire lock next => acquire lock (next.zoom lens embed)
  | release lock next => release lock (next.zoom lens embed)
  | holding lock next => holding lock fun held => (next held).zoom lens embed
  | await ready next => await (fun whole => ready (lens.view whole)) (next.zoom lens embed)

section Run

variable [DecidableEq ℓ] {program : Prog σ ℓ ε α} {next : Prog σ ℓ ε α} {value : α} {lock : ℓ}
  {act : Act σ ε α}

/-- Execute a program by itself, holding the listed locks. -/
def run : Prog σ ℓ ε α → σ → List ℓ → Outcome σ ℓ ε α
  | ret value, state, held => .done value state held
  | panic error, _, _ => .panic error
  | get next, state, held => (next state).run state held
  | put later next, _, held => next.run later held
  | acquire lock next, state, held =>
    if lock ∈ held then .deadlock lock else next.run state (lock :: held)
  | release lock next, state, held => next.run state (held.erase lock)
  | holding lock next, state, held => (next (lock ∈ held)).run state held
  | await ready next, state, held => if ready state then next.run state held else .asleep

/-- A program run by itself ends as the conditions say: with a value, with an expected panic, or
in a self-deadlock that is expected; it never waits for anything else. -/
def Wp (panics : ε → Prop) (deadlocks : ℓ → Prop) (program : Prog σ ℓ ε α)
    (post : α → σ → List ℓ → Prop) (state : σ) (held : List ℓ) : Prop :=
  match program.run state held with
  | .done value later locks => post value later locks
  | .panic error => panics error
  | .deadlock lock => deadlocks lock
  | .asleep => False

variable {panics : ε → Prop} {deadlocks : ℓ → Prop} {state later : σ} {held : List ℓ}
  {post : α → σ → List ℓ → Prop}

/-- Returning a value. -/
@[simp] theorem wp_pure :
    Wp panics deadlocks (pure value) post state held ↔ post value state held := Iff.rfl

/-- The end of a program. -/
@[simp] theorem wp_ret :
    Wp panics deadlocks (ret value) post state held ↔ post value state held := Iff.rfl

/-- A panic. -/
@[simp] theorem wp_panic {error : ε} :
    Wp panics deadlocks (panic error) post state held ↔ panics error := Iff.rfl

/-- One program after another. -/
@[simp] theorem wp_bind {next : α → Prog σ ℓ ε β} {post : β → σ → List ℓ → Prop} :
    Wp panics deadlocks (program >>= next) post state held ↔
      Wp panics deadlocks program
        (fun value later locks => Wp panics deadlocks (next value) post later locks)
        state held := by
  induction program generalizing state held with
  | ret value => exact Iff.rfl
  | panic error => exact Iff.rfl
  | get rest ih => exact ih state
  | put later rest ih => exact ih
  | acquire lock rest ih =>
    simp only [Wp, Bind.bind, bind, run] at ih ⊢
    by_cases member : lock ∈ held
    · simp [member]
    · simp only [member, if_false]
      exact ih
  | release lock rest ih => exact ih
  | holding lock rest ih => exact ih _
  | await ready rest ih =>
    simp only [Wp, Bind.bind, bind, run] at ih ⊢
    by_cases holds : ready state = true
    · simp only [holds, if_true]
      exact ih
    · simp [holds]

/-- An action that takes no locks. -/
@[simp] theorem wp_lift :
    Wp panics deadlocks (lift act) post state held ↔
      Act.Ok panics act (fun value later => post value later held) state := by
  simp only [Wp, lift, run, Act.Ok]
  cases act state <;> rfl

/-- An action that takes no locks, as a step of a program. -/
@[simp] theorem wp_liftM :
    Wp panics deadlocks (liftM act) post state held ↔
      Act.Ok panics act (fun value later => post value later held) state := wp_lift

/-- Reading the state. -/
@[simp] theorem wp_get {post : σ → σ → List ℓ → Prop} :
    Wp panics deadlocks (MonadState.get : Prog σ ℓ ε σ) post state held ↔ post state state held :=
  Iff.rfl

/-- Replacing the state. -/
@[simp] theorem wp_set {post : PUnit → σ → List ℓ → Prop} :
    Wp panics deadlocks (MonadStateOf.set later : Prog σ ℓ ε PUnit) post state held ↔
      post ⟨⟩ later held := Iff.rfl

/-- Changing the state. -/
@[simp] theorem wp_modify {change : σ → σ} {post : PUnit → σ → List ℓ → Prop} :
    Wp panics deadlocks (modify change : Prog σ ℓ ε PUnit) post state held ↔
      post ⟨⟩ (change state) held := Iff.rfl

/-- Taking a lock: the process must not hold it. -/
@[simp] theorem wp_acquire :
    Wp panics deadlocks (acquire lock next) post state held ↔
      if lock ∈ held then deadlocks lock
      else Wp panics deadlocks next post state (lock :: held) := by
  simp only [Wp, run]
  by_cases member : lock ∈ held <;> simp [member]

/-- Giving a lock back. -/
@[simp] theorem wp_release :
    Wp panics deadlocks (release lock next) post state held ↔
      Wp panics deadlocks next post state (held.erase lock) := Iff.rfl

/-- Asking for a lock. -/
@[simp] theorem wp_holding {next : Bool → Prog σ ℓ ε α} :
    Wp panics deadlocks (holding lock next) post state held ↔
      Wp panics deadlocks (next (lock ∈ held)) post state held := Iff.rfl

/-- Waiting for a condition. -/
@[simp] theorem wp_await {ready : σ → Bool} :
    Wp panics deadlocks (await ready next) post state held ↔
      ready state = true ∧ Wp panics deadlocks next post state held := by
  simp only [Wp, run]
  by_cases holds : ready state = true <;> simp [holds]

/-- A branch. -/
@[simp] theorem wp_ite {condition : Prop} [Decidable condition] {yes no : Prog σ ℓ ε α}
    :
    Wp panics deadlocks (if condition then yes else no) post state held ↔
      if condition then Wp panics deadlocks yes post state held
      else Wp panics deadlocks no post state held := by
  split <;> rfl

/-- A program over a part of the state runs as it does by itself. -/
@[simp] theorem wp_zoom {τ η : Type} {lens : Lens τ σ} {embed : ε → η} {expected : η → Prop}
    {post : α → τ → List ℓ → Prop} {whole : τ} :
    Wp expected deadlocks (program.zoom lens embed) post whole held ↔
      Wp (fun error => expected (embed error)) deadlocks program
        (fun value part locks => post value (lens.update whole part) locks)
        (lens.view whole) held := by
  induction program generalizing whole held with
  | ret value =>
    rw [zoom, wp_ret, wp_ret, lens.update_view]
  | panic error => exact Iff.rfl
  | get next ih => exact ih (lens.view whole)
  | put part next ih =>
    have after := @ih held (lens.update whole part)
    rw [lens.view_update] at after
    simp only [lens.update_update] at after
    exact after
  | acquire lock next ih =>
    rw [zoom, wp_acquire, wp_acquire, ih]
  | release lock next ih => exact ih
  | holding lock next ih => exact ih _
  | await ready next ih =>
    rw [zoom, wp_await, wp_await, ih]

/-- What is known of a run may use its outcome. -/
theorem Wp.self (wp : Wp panics deadlocks program post state held) :
    Wp panics deadlocks program (fun value later locks => post value later locks ∧
      program.run state held = .done value later locks) state held := by
  unfold Wp at *
  split at wp
  · rename_i ran
    exact ⟨wp, ran⟩
  · exact wp
  · exact wp
  · exact wp

/-- Weaker conditions are met too. -/
theorem Wp.mono {weaker : α → σ → List ℓ → Prop} {other : ε → Prop} {more : ℓ → Prop}
    (wp : Wp panics deadlocks program post state held)
    (weaken : ∀ value later locks, post value later locks → weaker value later locks)
    (expected : ∀ error, panics error → other error) (stuck : ∀ lock, deadlocks lock → more lock) :
    Wp other more program weaker state held := by
  unfold Wp at *
  split at wp
  · exact weaken _ _ _ wp
  · exact expected _ wp
  · exact stuck _ wp
  · exact wp

/-- A program that neither panics nor waits for ever is done. -/
theorem Wp.total (wp : Wp (fun _ => False) (fun _ => False) program post state held) :
    ∃ value later locks, program.run state held = .done value later locks ∧
      post value later locks := by
  grind [Wp]

/-- What holds of the outcome of a program that is done. -/
theorem Wp.of_done {locks : List ℓ} (wp : Wp panics deadlocks program post state held)
    (result : program.run state held = .done value later locks) : post value later locks := by
  rw [Wp, result] at wp
  exact wp

/-- A loop over a list keeps an invariant of the elements left. -/
theorem wp_forM {ι : Type} {body : ι → Prog σ ℓ ε PUnit} {list : List ι}
    {post : PUnit → σ → List ℓ → Prop} (inv : List ι → σ → List ℓ → Prop)
    (start : inv list state held)
    (iteration : ∀ element rest state held, inv (element :: rest) state held →
      Wp panics deadlocks (body element) (fun _ later locks => inv rest later locks) state held)
    (continued : ∀ later locks, inv [] later locks → post ⟨⟩ later locks) :
    Wp panics deadlocks (list.forM body) post state held := by
  induction list generalizing state held with
  | nil => exact continued state held start
  | cons element rest ih =>
    show Wp panics deadlocks (body element >>= fun _ => rest.forM body) _ state held
    grind [wp_bind, Wp]

end Run

end Prog

end Xv6.Lib
