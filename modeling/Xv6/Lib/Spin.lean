import Mathlib.Logic.Function.Basic

/-!
# Spin locks

Threads with program counters and a lock that records its holder. The counters at which a thread
holds the lock are a predicate; `Guards` says that the record and the counters agree, which is
mutual exclusion. One rule each for a step that takes the lock, gives it back, or does neither.
-/

namespace Xv6.Lib

open Function

variable {ι Pc : Type}

/-- The lock is held by a thread exactly if the thread is at a counter that holds it. -/
def Guards (lock : Option ι) (holds : Pc → Prop) (pc : ι → Pc) : Prop :=
  ∀ p, lock = some p ↔ holds (pc p)

namespace Guards

variable {lock : Option ι} {holds : Pc → Prop} {pc : ι → Pc} {p q : ι} {new : Pc}

/-- Two threads that hold the lock are the same. -/
theorem exclusive (h : Guards lock holds pc) (here : holds (pc p)) (there : holds (pc q)) : p = q :=
  Option.some.inj (((h p).mpr here).symm.trans ((h q).mpr there))

/-- Nobody holds a free lock. -/
theorem not_holds (h : Guards none holds pc) : ¬holds (pc p) := by
  intro here
  simpa using (h p).mpr here

variable [DecidableEq ι]

/-- A thread takes a free lock. -/
theorem acquire (h : Guards none holds pc) (inside : holds new) :
    Guards (some p) holds (update pc p new) := by
  intro q
  by_cases same : q = p
  · simp [same, inside]
  · simp [same, Ne.symm same, h.not_holds]

/-- The holder gives the lock back. -/
theorem release (h : Guards lock holds pc) (inside : holds (pc p)) (outside : ¬holds new) :
    Guards none holds (update pc p new) := by
  grind [Guards]

/-- A thread moves on without touching the lock. -/
theorem keep (h : Guards lock holds pc) (same : holds new ↔ holds (pc p)) :
    Guards lock holds (update pc p new) := by
  intro q
  by_cases here : q = p
  · rw [here, update_self, same]
    exact h p
  · rw [update_of_ne here]
    exact h q

end Guards

end Xv6.Lib
