import Mathlib.Algebra.Order.Ring.Int
import Netstar.Lib.Run
import Netstar.Spec.Core.ExpiringFifo

/-!
# `Netstar.Spec.Core.Semaphore`: `basic_semaphore`

`_count` is a `ssize_t` and the units of a call are a `size_t`, both 64 bits wide. A promise in
`_wait_list` is the number of the call that returned its future. An exception is a number too.

`Session` numbers the calls of `wait` and `try_wait` in the order they arrive. `log` has the answers
in the order they were given: a future that became ready or failed, or the result of `try_wait`. The
totals count the units of the calls. `fault` is set when the program read a payload that is not
there, and no call follows then.
-/

set_option autoImplicit false

namespace Netstar.Spec.Core

/-- `basic_semaphore::entry`. -/
structure SemEntry where
  pr : Nat
  nr : UInt64
  deriving DecidableEq, Repr

/-- `basic_semaphore`. -/
structure Semaphore where
  count : Int64
  ex : Option Nat
  waitList : ExpiringFifo SemEntry
  deriving DecidableEq, Repr

namespace Semaphore

/-- `basic_semaphore(size_t count)`. -/
def create (count : UInt64) : Semaphore := ⟨count.toInt64, none, .create⟩

/-- `max_counter`. -/
def maxCounter : UInt64 := 0x7fffffffffffffff

/-- `_count += nr`. The sum is one of `size_t`. -/
def addUnits (count : Int64) (nr : UInt64) : Int64 := (count.toUInt64 + nr).toInt64

/-- `_count -= nr`. -/
def subUnits (count : Int64) (nr : UInt64) : Int64 := (count.toUInt64 - nr).toInt64

/-- `has_available_units`. -/
def hasAvailableUnits (s : Semaphore) (nr : UInt64) : Bool :=
  decide (0 ≤ s.count) && decide (nr ≤ s.count.toUInt64)

/-- `may_proceed`. -/
def mayProceed (s : Semaphore) (nr : UInt64) : Bool := s.hasAvailableUnits nr && s.waitList.empty

/-- What `wait` returns: a ready future, a failed one, or one that waits. -/
inductive WaitResult where
  | ready
  | failed (ex : Nat)
  | waits
  deriving DecidableEq, Repr

/-- `wait(timeout, nr)`. The call can expire if `timeout` is below `time_point::max()`. -/
def wait (s : Semaphore) (pr : Nat) (expires : Bool) (nr : UInt64) : Semaphore × WaitResult :=
  if s.mayProceed nr then ({ s with count := subUnits s.count nr }, .ready)
  else
    match s.ex with
    | some ex => (s, .failed ex)
    | none => ({ s with waitList := s.waitList.pushBack ⟨pr, nr⟩ expires }, .waits)

/-- `try_wait`. -/
def tryWait (s : Semaphore) (nr : UInt64) : Semaphore × Bool :=
  if s.mayProceed nr then ({ s with count := subUnits s.count nr }, true) else (s, false)

/-- The loop of `signal`, with the entries whose promises it sets. -/
def signalLoop (s : Semaphore) : Option (Semaphore × List SemEntry) :=
  if s.waitList.empty then some (s, [])
  else
    match h : s.waitList.front with
    | none => none
    | some x =>
      if s.hasAvailableUnits x.nr then do
        let (t, xs) ← signalLoop
          { s with count := subUnits s.count x.nr, waitList := s.waitList.popFront }
        return (t, x :: xs)
      else some (s, [])
termination_by s.waitList.list.length
decreasing_by exact ExpiringFifo.length_popFront_lt h

/-- `signal`. -/
def signal (s : Semaphore) (nr : UInt64) : Option (Semaphore × List SemEntry) :=
  match s.ex with
  | some _ => some (s, [])
  | none => signalLoop { s with count := addUnits s.count nr }

/-- `consume`. -/
def consume (s : Semaphore) (nr : UInt64) : Semaphore :=
  match s.ex with
  | some _ => s
  | none => { s with count := subUnits s.count nr }

/-- The loop of `broken`, with the entries whose promises it fails. -/
def brokenLoop (q : ExpiringFifo SemEntry) : Option (ExpiringFifo SemEntry × List SemEntry) :=
  if q.empty then some (q, [])
  else
    match h : q.front with
    | none => none
    | some x => do
      let (r, xs) ← brokenLoop q.popFront
      return (r, x :: xs)
termination_by q.list.length
decreasing_by exact ExpiringFifo.length_popFront_lt h

/-- `broken`. -/
def broken (s : Semaphore) (ex : Nat) : Option (Semaphore × List SemEntry) := do
  let (q, xs) ← brokenLoop s.waitList
  return (⟨0, some ex, q⟩, xs)

/-- What can happen to a semaphore. `expire i` fires the timer of the entry at position `i`. -/
inductive Event where
  | wait (expires : Bool) (nr : UInt64)
  | tryWait (nr : UInt64)
  | signal (nr : UInt64)
  | consume (nr : UInt64)
  | expire (i : Nat)
  | broken (ex : Nat)
  deriving DecidableEq, Repr

/-- The answer to a call of `wait` or `try_wait`. -/
inductive Answer where
  | granted
  | refused
  | timedOut
  | failed (ex : Nat)
  deriving DecidableEq, Repr

/-- A semaphore and what its users know. -/
structure Session where
  sem : Semaphore
  initial : Nat
  calls : Nat
  log : List (Nat × Answer)
  signalled : Nat
  granted : Nat
  consumed : Nat
  fault : Bool
  deriving DecidableEq, Repr

namespace Session

/-- A semaphore before the first call. -/
def create (count : UInt64) : Session :=
  ⟨Semaphore.create count, count.toNat, 0, [], 0, 0, 0, false⟩

/-- The units of a list of entries. -/
def unitsOf (xs : List SemEntry) : Nat := (xs.map fun x => x.nr.toNat).sum

/-- A call that takes `nr` units is answered at once. -/
def answer (s : Session) (sem : Semaphore) (nr : UInt64) (a : Answer) : Session :=
  { s with
    sem := sem
    calls := s.calls + 1
    log := s.log ++ [(s.calls, a)]
    granted := if a = .granted then s.granted + nr.toNat else s.granted }

/-- One event. A timer fires only while it is armed. -/
def step (s : Session) (e : Event) : Option Session :=
  if s.fault then none
  else
    match e with
    | .wait expires nr =>
      match s.sem.wait s.calls expires nr with
      | (sem, .ready) => some (s.answer sem nr .granted)
      | (sem, .failed ex) => some (s.answer sem nr (.failed ex))
      | (sem, .waits) => some { s with sem := sem, calls := s.calls + 1 }
    | .tryWait nr =>
      match s.sem.tryWait nr with
      | (sem, true) => some (s.answer sem nr .granted)
      | (sem, false) => some (s.answer sem nr .refused)
    | .signal nr =>
      match s.sem.signal nr with
      | none => some { s with fault := true }
      | some (sem, xs) =>
        some { s with
          sem := sem
          log := s.log ++ xs.map fun x => (x.pr, .granted)
          signalled := s.signalled + nr.toNat
          granted := s.granted + unitsOf xs }
    | .consume nr => some { s with sem := s.sem.consume nr, consumed := s.consumed + nr.toNat }
    | .expire i =>
      match s.sem.waitList.expire i with
      | none => none
      | some (q, x) =>
        some { s with sem := { s.sem with waitList := q }, log := s.log ++ [(x.pr, .timedOut)] }
    | .broken ex =>
      match s.sem.broken ex with
      | none => some { s with fault := true }
      | some (sem, xs) =>
        some { s with sem := sem, log := s.log ++ xs.map fun x => (x.pr, .failed ex) }

end Session

end Semaphore

end Netstar.Spec.Core
