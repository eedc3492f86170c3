import Mathlib.Data.List.Basic
import Mathlib.Tactic.Common

/-! A first-in first-out queue that can be cancelled. While it is cancelled,
pushing and popping fail and leave the contents alone. -/

structure CancelQueue (α : Type*) where
  items : List α
  cancelled : Bool
  deriving DecidableEq, Repr

namespace CancelQueue

variable {α : Type*}

def empty : CancelQueue α := ⟨[], false⟩

/-- What a blocking pop meets. -/
inductive Popped (α : Type*)
  | item (a : α) (q : CancelQueue α)
  | cancelled
  | blocked

/-- `none` is the `Canceled` exception. -/
def push (q : CancelQueue α) (a : α) : Option (CancelQueue α) :=
  if q.cancelled then none else some { q with items := q.items ++ [a] }

/-- The queue after a push whose `Canceled` exception is caught and dropped. -/
def pushOrDrop (q : CancelQueue α) (a : α) : CancelQueue α := (q.push a).getD q

def pop (q : CancelQueue α) : Popped α :=
  if q.cancelled then .cancelled
  else match q.items with
    | [] => .blocked
    | a :: as => .item a { q with items := as }

def size (q : CancelQueue α) : ℕ := q.items.length

def cancel (q : CancelQueue α) : CancelQueue α := { q with cancelled := true }

def cancelReset (q : CancelQueue α) : CancelQueue α := { q with cancelled := false }

@[simp] theorem items_cancel (q : CancelQueue α) : q.cancel.items = q.items := rfl
@[simp] theorem items_cancelReset (q : CancelQueue α) : q.cancelReset.items = q.items := rfl
@[simp] theorem cancelled_cancel (q : CancelQueue α) : q.cancel.cancelled = true := rfl
@[simp] theorem cancelled_cancelReset (q : CancelQueue α) : q.cancelReset.cancelled = false := rfl

theorem size_eq_zero (q : CancelQueue α) : q.size = 0 ↔ q.items = [] := List.length_eq_zero_iff

theorem push_eq_some {q r : CancelQueue α} {a : α} :
    q.push a = some r ↔ q.cancelled = false ∧ r = ⟨q.items ++ [a], false⟩ := by
  cases q with
  | mk items cancelled => cases cancelled <;> simp [push, eq_comm]

theorem pushOrDrop_eq (q : CancelQueue α) (a : α) :
    q.pushOrDrop a = if q.cancelled then q else { q with items := q.items ++ [a] } := by
  unfold pushOrDrop push
  split <;> rfl

@[simp] theorem cancelled_pushOrDrop (q : CancelQueue α) (a : α) :
    (q.pushOrDrop a).cancelled = q.cancelled := by
  rw [pushOrDrop_eq]
  split <;> rfl

theorem pop_eq_item {q r : CancelQueue α} {a : α} :
    q.pop = .item a r ↔ q.cancelled = false ∧ q.items = a :: r.items ∧ r.cancelled = false := by
  cases q with
  | mk items cancelled =>
    cases r with
    | mk rest c => cases cancelled <;> cases items <;> simp [pop, eq_comm, and_assoc]

theorem pop_eq_cancelled {q : CancelQueue α} : q.pop = .cancelled ↔ q.cancelled = true := by
  cases q with
  | mk items cancelled => cases cancelled <;> cases items <;> simp [pop]

end CancelQueue
