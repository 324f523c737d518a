import Netstar.Spec.Core.ChunkedFifo

/-!
# `Netstar.Spec.Core.FifoReserve`: what `chunked_fifo::reserve` promises

The comment above `reserve` promises that `n - size()` further pushes need no memory, with any pops
between them. `play` is a user of the queue in a world where no chunk can be allocated, so a push
that would need memory has no next state.

`ReserveHolds` is the promise. `Enough` is the condition under which the code keeps it, in numbers:
the size, the room of the back chunk and the saved chunks before the call.
-/

set_option autoImplicit false

namespace Netstar.Spec.Core.ChunkedFifo

open Netstar.Lib

variable {α : Type}

/-- What a user does after `reserve`. -/
inductive FifoOp (α : Type) where
  | push (x : α)
  | pop
  deriving DecidableEq, Repr

/-- The world in which each allocation fails and no constructor throws. -/
def noMemory : FifoEnv := ⟨fun _ => none, false⟩

/-- One operation without memory, on the queue and on the list of its items. -/
def play (itemsPerChunk : Nat) (s : ChunkedFifo α × List α) :
    FifoOp α → Option (ChunkedFifo α × List α)
  | .push x =>
    match s.1.pushBack itemsPerChunk noMemory x with
    | .ok (f, false) => some (f, s.2 ++ [x])
    | _ => none
  | .pop =>
    if s.2 = [] then none
    else
      match s.1.popFront itemsPerChunk with
      | .ok f => some (f, s.2.tail)
      | .error _ => none

/-- The number of pushes. -/
def pushes : List (FifoOp α) → Nat
  | [] => 0
  | .push _ :: ops => pushes ops + 1
  | .pop :: ops => pushes ops

/-- The next `m` pushes need no memory, with any pops between them. -/
def PushesFree (itemsPerChunk : Nat) (f : ChunkedFifo α) (xs : List α) (m : Nat) : Prop :=
  ∀ ops t, run (play itemsPerChunk) (f, xs) ops = some t → pushes ops < m →
    ∀ x, (play itemsPerChunk t (.push x)).isSome

/-- What the comment promises of `reserve(n)` on a queue with the items `xs`: it ends, it allocates
no more chunks than `n - size()` items fill, and if it did not throw then `n - size()` pushes need no
memory. Each chunk that it allocates is a saved one. -/
def ReserveHolds (itemsPerChunk : Nat) (f : ChunkedFifo α) (xs : List α) (n : UInt64) : Prop :=
  ∀ env, match f.reserve itemsPerChunk env n with
    | .error e => e = .addressInUse
    | .ok (f', threw) =>
      f'.nfreeChunks - f.nfreeChunks ≤
        (n.toNat - xs.length + itemsPerChunk - 1) / itemsPerChunk ∧
      (threw = false → PushesFree itemsPerChunk f' xs (n.toNat - xs.length))

/-- The items for which the back chunk has room. -/
def backRoom (itemsPerChunk : Nat) (f : ChunkedFifo α) : Nat :=
  match f.deref f.backChunk with
  | .ok (_, c) => itemsPerChunk - (c.last - c.first).toNat
  | .error _ => 0

/-- The pushes that need no memory whatever is popped between them. With a saved chunk the room of
the back chunk counts for nothing, as pops can give it away, and every saved chunk but one is worth
one push: it is deleted when it becomes empty. -/
def safePushes (itemsPerChunk room saved : Nat) : Nat :=
  if saved = 0 then room else saved - 1 + itemsPerChunk

/-- The condition under which `reserve(n)` keeps its promise. Below the size, the code takes the
difference modulo `2 ^ 64`. -/
def Enough (itemsPerChunk size room saved n : Nat) : Prop :=
  if n < size then
    (((n : Int) - size - room + itemsPerChunk - 1) % 2 ^ 64).toNat / itemsPerChunk ≤ saved
  else
    n - size ≤ safePushes itemsPerChunk room
      (max saved ((n - size - room + itemsPerChunk - 1) / itemsPerChunk))

end Netstar.Spec.Core.ChunkedFifo
