import Mathlib.Data.List.Basic

/-!
# `Netstar.Spec.Core.ExpiringFifo`: the queue whose entries can expire

An entry whose payload is disengaged has expired. Its timer is armed when the entry was pushed with a
timeout below `time_point::max()`, and firing disarms it. `_list` is a FIFO list here.

`front` reads the payload of the first entry. It is `none` where the source would follow a null
pointer or read a disengaged payload.
-/

set_option autoImplicit false

namespace Netstar.Spec.Core

/-- `expiring_fifo::entry`. -/
structure FifoEntry (α : Type) where
  payload : Option α
  armed : Bool
  deriving DecidableEq, Repr

/-- `expiring_fifo`. -/
structure ExpiringFifo (α : Type) where
  list : List (FifoEntry α)
  size : Nat
  deriving DecidableEq, Repr

namespace ExpiringFifo

variable {α : Type}

/-- `expiring_fifo()`. -/
def create : ExpiringFifo α := ⟨[], 0⟩

/-- `drop_expired_front`. -/
def dropExpiredFront (q : ExpiringFifo α) : ExpiringFifo α :=
  { q with list := q.list.dropWhile fun e => e.payload.isNone }

/-- `empty`. -/
def empty (q : ExpiringFifo α) : Bool := q.size == 0

/-- `front`. -/
def front (q : ExpiringFifo α) : Option α := q.list.head?.bind (·.payload)

/-- `push_back`. The entry can expire if `expires`. -/
def pushBack (q : ExpiringFifo α) (payload : α) (expires : Bool) : ExpiringFifo α where
  list := q.list ++ [⟨some payload, expires⟩]
  size := q.size + 1

/-- `pop_front`. -/
def popFront (q : ExpiringFifo α) : ExpiringFifo α :=
  dropExpiredFront ⟨q.list.tail, q.size - 1⟩

/-- Taking the front out makes the list shorter. -/
theorem length_popFront_lt {q : ExpiringFifo α} {x : α} (h : q.front = some x) :
    q.popFront.list.length < q.list.length := by
  cases hlist : q.list with
  | nil => simp [front, hlist] at h
  | cons e es =>
    have hle := (List.dropWhile_sublist (l := es) fun e => e.payload.isNone).length_le
    simp only [popFront, dropExpiredFront, hlist, List.tail_cons, List.length_cons]
    omega

/-- The timer of the entry at position `i` fires, and `_on_expiry` sees the payload. `none` if the
timer is not armed. -/
def expire (q : ExpiringFifo α) (i : Nat) : Option (ExpiringFifo α × α) :=
  match q.list[i]? with
  | some ⟨some payload, true⟩ =>
    some (dropExpiredFront ⟨q.list.set i ⟨none, false⟩, q.size - 1⟩, payload)
  | _ => none

end ExpiringFifo

end Netstar.Spec.Core
