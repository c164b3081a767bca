import Mathlib.Init

/-!
# Runs of a step function

A system is a step function that refuses the events not enabled in a state. A run may be
restricted to steps that meet a condition on the state before the step and the event; the one
induction over runs is `Reach.invariant`, and `runChecked` executes a listed run.
-/

namespace Xv6.Lib

variable {σ ε : Type}

/-- States reached from `start` by enabled steps that all meet the condition `allowed`. -/
inductive Reach (step : σ → ε → Option σ) (allowed : σ → ε → Prop) (start : σ) : σ → Prop where
  | start : Reach step allowed start start
  | next {state later : σ} (event : ε) (earlier : Reach step allowed start state)
      (meets : allowed state event) (moves : step state event = some later) :
      Reach step allowed start later

namespace Reach

variable {step : σ → ε → Option σ} {allowed weaker : σ → ε → Prop} {start state : σ}

/-- What holds at the start and is kept by every allowed step from a state where it holds, holds
in every state reached. -/
theorem invariant (inv : σ → Prop) (reached : Reach step allowed start state) (first : inv start)
    (kept : ∀ state event later, inv state → allowed state event →
      step state event = some later → inv later) : inv state := by
  induction reached with
  | start => exact first
  | next event _ meets moves ih => exact kept _ event _ ih meets moves

end Reach

/-- Execute listed events, checking the condition before each one. -/
def runChecked (step : σ → ε → Option σ) (allowed : σ → ε → Prop)
    [∀ state event, Decidable (allowed state event)] : List ε → σ → Option σ
  | [], state => some state
  | event :: rest, state =>
    if allowed state event then
      match step state event with
      | some later => runChecked step allowed rest later
      | none => none
    else none

variable {step : σ → ε → Option σ} {allowed : σ → ε → Prop} {start : σ}

/-- A run that executes is a run. -/
theorem reach_of_runChecked [∀ state event, Decidable (allowed state event)] {state final : σ}
    (events : List ε) (earlier : Reach step allowed start state)
    (executed : runChecked step allowed events state = some final) :
    Reach step allowed start final := by
  induction events generalizing state with
  | nil =>
    cases executed
    exact earlier
  | cons event rest ih =>
    rw [runChecked] at executed
    split at executed
    · rename_i meets
      cases moves : step state event with
      | none => simp [moves] at executed
      | some later =>
        rw [moves] at executed
        exact ih (earlier.next event meets moves) executed
    · contradiction

/-- A listed run whose last state has a property leads to such a state. -/
theorem exists_reach [∀ state event, Decidable (allowed state event)] {property : σ → Prop}
    [DecidablePred property] (events : List ε)
    (executed : (runChecked step allowed events start).any (fun s => decide (property s)) = true) :
    ∃ s, Reach step allowed start s ∧ property s := by
  obtain ⟨s, run, holds⟩ := (Option.any_eq_true ..).mp executed
  exact ⟨s, reach_of_runChecked events .start run, of_decide_eq_true holds⟩

end Xv6.Lib
