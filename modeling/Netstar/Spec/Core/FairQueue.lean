import Mathlib.Logic.Function.Basic
import Netstar.Spec.Core.Semaphore

/-!
# `Netstar.Spec.Core.FairQueue`: `fair_queue`

A priority class is an element of `κ`, and a request is the number of the call of `queue` that made
it. The accumulated costs are arbitrary, so any element of `_handles` can be on top of the heap:
`picks` says which one each iteration of the loop in `execute_one` takes. Shares and weights only
enter the costs.

A slot is the number of a call of `execute_one`. `ready` has the slots whose wait is over and whose
continuation has not run. A call of `queue` throws when there is no memory for its request or for its
entry in the semaphore, and leaves its class in `_handles`.
-/

set_option autoImplicit false

namespace Netstar.Spec.Core

/-- Why the program stops. -/
inductive FairFault where
  | assertion
  | frontOfEmpty
  | endless
  | semaphore
  deriving DecidableEq, Repr

/-- `fair_queue`, with the `_queued` flags and the queues of its classes. -/
structure FairQueue (κ : Type) where
  sem : Semaphore
  handles : List κ
  queued : κ → Bool
  queues : κ → List Nat

namespace FairQueue

variable {κ : Type} [DecidableEq κ]

/-- `fair_queue(capacity)`. -/
def create (capacity : UInt32) : FairQueue κ where
  sem := .create capacity.toUInt64
  handles := []
  queued := fun _ => false
  queues := fun _ => []

/-- `push_priority_class`. -/
def pushPriorityClass (fq : FairQueue κ) (pc : κ) : FairQueue κ :=
  if !fq.queued pc then
    { fq with handles := fq.handles ++ [pc], queued := Function.update fq.queued pc true }
  else fq

/-- `pop_priority_class`. -/
def popPriorityClass (fq : FairQueue κ) (pick : Nat) : Except FairFault (FairQueue κ × κ) :=
  match fq.handles[pick % fq.handles.length]? with
  | none => .error .assertion
  | some h =>
    let fq := { fq with handles := fq.handles.eraseIdx (pick % fq.handles.length) }
    if fq.queued h then .ok ({ fq with queued := Function.update fq.queued h false }, h)
    else .error .assertion

/-- The loop of `execute_one`. -/
def popLoop (fq : FairQueue κ) : List Nat → Nat → Except FairFault (FairQueue κ × κ)
  | _, 0 => .error .endless
  | picks, bound + 1 => do
    let (fq, h) ← fq.popPriorityClass (picks.headD 0)
    if (fq.queues h).isEmpty then fq.popLoop picks.tail bound
    else return (fq, h)

/-- The continuation of `execute_one`, which dispatches a request. -/
def dispatch (fq : FairQueue κ) (picks : List Nat) : Except FairFault (FairQueue κ × κ × Nat) := do
  let (fq, h) ← fq.popLoop picks (fq.handles.length + 1)
  match fq.queues h with
  | [] => throw .frontOfEmpty
  | req :: queue =>
    let fq := { fq with queues := Function.update fq.queues h queue }
    return (if queue.isEmpty then fq else fq.pushPriorityClass h, h, req)

/-- The calls and the continuations. -/
inductive Event (κ : Type) where
  | queue (pc : κ)
  | queueThrows (pc : κ)
  | run (i : Nat) (picks : List Nat)
  | complete (req : Nat) (ok : Bool)
  deriving DecidableEq, Repr

/-- A fair queue and what its users know. -/
structure Session (κ : Type) where
  fq : FairQueue κ
  capacity : UInt32
  calls : Nat
  ready : List Nat
  submitted : List (κ × Nat)
  dispatched : List (κ × Nat)
  running : List Nat
  fault : Option FairFault

namespace Session

/-- A fair queue before the first call. -/
def create (capacity : UInt32) : Session κ := ⟨.create capacity, capacity, 0, [], [], [], [], none⟩

/-- The number of requests that were not dispatched. -/
def waiting (s : Session κ) : Nat := s.submitted.length - s.dispatched.length

/-- `execute_one`, to the first suspension. -/
def executeOne (s : Session κ) : Session κ :=
  let (sem, result) := s.fq.sem.wait s.calls false 1
  let s := { s with fq.sem := sem }
  match result with
  | .ready => { s with ready := s.ready ++ [s.calls] }
  | _ => s

/-- `queue`. -/
def queue (s : Session κ) (pc : κ) : Session κ :=
  let fq := s.fq.pushPriorityClass pc
  let fq := { fq with queues := Function.update fq.queues pc (fq.queues pc ++ [s.calls]) }
  let s := { s with fq := fq, submitted := s.submitted ++ [(pc, s.calls)] }
  { s.executeOne with calls := s.calls + 1 }

/-- `_sem.signal()` when a request is finished. -/
def signal (s : Session κ) : Except FairFault (Session κ) :=
  match s.fq.sem.signal 1 with
  | none => .error .semaphore
  | some (sem, xs) => .ok { s with fq.sem := sem, ready := s.ready ++ xs.map (·.pr) }

/-- One event, when it can happen. -/
def perform (s : Session κ) : Event κ → Option (Except FairFault (Session κ))
  | .queue pc => some (.ok (s.queue pc))
  | .queueThrows pc => some (.ok { s with fq := s.fq.pushPriorityClass pc })
  | .run i picks =>
    if i < s.ready.length then
      some do
        let (fq, h, req) ← s.fq.dispatch picks
        return { s with
          fq := fq
          ready := s.ready.eraseIdx i
          dispatched := s.dispatched ++ [(h, req)]
          running := s.running ++ [req] }
    else none
  | .complete req _ =>
    if req ∈ s.running then some { s with running := s.running.erase req }.signal else none

/-- One event. -/
def step (s : Session κ) (e : Event κ) : Option (Session κ) :=
  if s.fault.isSome then none
  else
    match s.perform e with
    | none => none
    | some (.ok t) => some t
    | some (.error f) => some { s with fault := some f }

end Session

end FairQueue

end Netstar.Spec.Core
