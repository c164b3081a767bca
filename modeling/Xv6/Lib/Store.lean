import Mathlib.Logic.Function.Basic

/-!
# Programs over a durable store

A program reads cells through a volatile view and writes single cells to the view and to the
durable store at once. Execution may stop between any two writes; the view is then lost and the
durable store is all that remains. `Io.cut` is that stop after a given number of writes, and
`Io.Holds` is the statement that every stop leaves a store of a given kind. `Io.Spec` adds a
postcondition of the end; its rules follow the sequencing of programs, so that a protocol is
checked one write at a time.
-/

namespace Xv6.Lib

open Function

variable {ι β α γ : Type} {value : β}

/-- A volatile view of the cells in front of the durable cells. -/
structure Store (ι β : Type) where
  /-- What a read returns. -/
  view : ι → β
  /-- What survives a stop. -/
  disk : ι → β

/-- A program of single-cell reads and writes. -/
inductive Io (ι β α : Type) where
  | ret (value : α)
  | read (cell : ι) (next : β → Io ι β α)
  | write (cell : ι) (value : β) (next : Io ι β α)

namespace Io

/-- Run one program, then the program its result selects. -/
def bind : Io ι β α → (α → Io ι β γ) → Io ι β γ
  | ret value, rest => rest value
  | read cell next, rest => read cell fun value => (next value).bind rest
  | write cell value next, rest => write cell value (next.bind rest)

instance : Monad (Io ι β) where
  pure := ret
  bind := bind

end Io

section Execution

variable [DecidableEq ι] {program : Io ι β α} {rest : α → Io ι β γ} {cell : ι}

/-- A write reaches the view and the durable cells together. -/
def Store.write (store : Store ι β) (cell : ι) (value : β) : Store ι β where
  view := update store.view cell value
  disk := update store.disk cell value

/-- After a stop the view starts from the durable cells. -/
def Store.boot (disk : ι → β) : Store ι β := ⟨disk, disk⟩

namespace Io

/-- Run a program to its end. -/
def exec : Io ι β α → Store ι β → α × Store ι β
  | ret value, store => (value, store)
  | read cell next, store => (next (store.view cell)).exec store
  | write cell value next, store => next.exec (store.write cell value)

/-- Run a program until it has made a given number of writes, or to its end. -/
def cut : Io ι β α → Nat → Store ι β → Store ι β
  | ret _, _, store => store
  | read cell next, count, store => (next (store.view cell)).cut count store
  | write _ _ _, 0, store => store
  | write cell value next, count + 1, store => next.cut count (store.write cell value)

/-- Every stop of the program, its end included, leaves durable cells of the given kind. -/
def Holds (kind : (ι → β) → Prop) (program : Io ι β α) (store : Store ι β) : Prop :=
  ∀ count, kind (program.cut count store).disk

variable {kind : (ι → β) → Prop} {store : Store ι β}

/-- Sequencing executes the first program and then the selected one. -/
@[simp] theorem exec_bind (program : Io ι β α) (rest : α → Io ι β γ) :
    (program >>= rest).exec store =
      (rest (program.exec store).1).exec (program.exec store).2 := by
  induction program generalizing store with
  | ret value => rfl
  | read cell next ih => exact ih (store.view cell)
  | write cell value next ih => exact ih

/-- A finished program stops in its only store. -/
theorem holds_pure (value : α) (start : kind store.disk) :
    Holds kind (pure value : Io ι β α) store := fun _ => start

/-- A write stops before itself or after it. -/
theorem holds_write (cell : ι) (value : β) (next : Io ι β α) (start : kind store.disk)
    (rest : Holds kind next (store.write cell value)) :
    Holds kind (write cell value next) store := by
  intro count
  cases count with
  | zero => exact start
  | succ count => exact rest count

/-- Sequencing stops in the first program or in the one its result selects. -/
theorem holds_bind (first : Holds kind program store)
    (second : Holds kind (rest (program.exec store).1) (program.exec store).2) :
    Holds kind (program >>= rest) store := by
  induction program generalizing store with
  | ret value => exact second
  | read cell next ih => exact ih (store.view cell) first second
  | write cell value next ih =>
    apply holds_write cell value _ (first 0)
    exact ih (fun count => first (count + 1)) second

/-- Every stop of the program leaves durable cells of the given kind, and its end satisfies a
postcondition. -/
def Spec (kind : (ι → β) → Prop) (post : α → Store ι β → Prop) (program : Io ι β α)
    (store : Store ι β) : Prop :=
  Holds kind program store ∧ post (program.exec store).1 (program.exec store).2

variable {post : α → Store ι β → Prop}

/-- A finished program meets its postcondition where it stands. -/
theorem spec_pure {value : α} (start : kind store.disk) (done : post value store) :
    Spec kind post (pure value : Io ι β α) store := ⟨holds_pure value start, done⟩

/-- A read followed by the program its value selects. -/
theorem spec_read {rest : β → Io ι β α} (next : Spec kind post (rest (store.view cell)) store) :
    Spec kind post (read cell .ret >>= rest) store := next

/-- A write stops before itself, or in the program that follows it. -/
theorem spec_write {rest : Unit → Io ι β α} (start : kind store.disk)
    (next : Spec kind post (rest ()) (store.write cell value)) :
    Spec kind post (write cell value (.ret ()) >>= rest) store :=
  ⟨holds_write cell value _ start next.1, next.2⟩

/-- A write at the end of a program. -/
theorem spec_write_last {post : Unit → Store ι β → Prop} (start : kind store.disk)
    (finish : kind (store.write cell value).disk) (done : post () (store.write cell value)) :
    Spec kind post (write cell value (.ret ())) store :=
  ⟨holds_write cell value _ start (holds_pure () finish), done⟩

/-- Sequencing: the postcondition of the first program is the precondition of the second. -/
theorem spec_bind {middle : α → Store ι β → Prop} {post : γ → Store ι β → Prop}
    (first : Spec kind middle program store)
    (second : ∀ value later, middle value later → Spec kind post (rest value) later) :
    Spec kind post (program >>= rest) store := by
  have tail := second _ _ first.2
  refine ⟨holds_bind first.1 tail.1, ?_⟩
  rw [exec_bind]
  exact tail.2

/-- A specification with a stronger kind of stop and a stronger postcondition. -/
theorem Spec.mono {weaker : (ι → β) → Prop} {later : α → Store ι β → Prop}
    (spec : Spec kind post program store) (weaken : ∀ disk, kind disk → weaker disk)
    (relax : ∀ value store, post value store → later value store) :
    Spec weaker later program store :=
  ⟨fun count => weaken _ (spec.1 count), relax _ _ spec.2⟩

end Io

end Execution

end Xv6.Lib
