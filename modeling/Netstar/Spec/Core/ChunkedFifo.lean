import Netstar.Lib.Run
import Netstar.Spec.Core.CircularBuffer

/-!
# `Netstar.Spec.Core.ChunkedFifo`: `chunked_fifo`

The chunks of a queue live in a heap and are linked by addresses. `begin` and `end` of a chunk are
`unsigned`, 32 bits wide, and `itemsPerChunk` is the parameter of the template.

`FifoEnv` says what the world does in one call: where the next chunks are allocated, with `none` for
`bad_alloc`, and if the constructor of an element throws. The allocator returns only addresses that
are not in use. `Stop` says why a call has no result. A loop of the source that follows links has a
bound here, and `endless` says that the bound was not enough.

`Session` has any number of queues, and beside each of them the plain list of the same calls.
-/

set_option autoImplicit false

namespace Netstar.Spec.Core

/-- `chunked_fifo::chunk`. -/
structure Chunk (α : Type) where
  items : List (Cell α)
  next : Option Nat
  first : UInt32
  last : UInt32
  deriving DecidableEq, Repr

/-- Why a call has no result. -/
inductive Stop where
  | badPointer
  | endless
  | addressInUse
  deriving DecidableEq, Repr

/-- What the world does in one call. -/
structure FifoEnv where
  alloc : Nat → Option Nat
  ctorThrows : Bool

/-- `chunked_fifo`. -/
structure ChunkedFifo (α : Type) where
  heap : Nat → Option (Chunk α)
  frontChunk : Option Nat
  backChunk : Option Nat
  nchunks : Nat
  freeChunks : Option Nat
  nfreeChunks : Nat

namespace ChunkedFifo

variable {α : Type}

/-- `chunked_fifo()`. -/
def create : ChunkedFifo α := ⟨fun _ => none, none, none, 0, none, 0⟩

/-- `mask`. -/
def mask (itemsPerChunk : Nat) (idx : UInt32) : Nat := idx.toNat &&& (itemsPerChunk - 1)

/-- `*p`. -/
def deref (f : ChunkedFifo α) (p : Option Nat) : Except Stop (Nat × Chunk α) :=
  match p with
  | none => .error .badPointer
  | some a =>
    match f.heap a with
    | none => .error .badPointer
    | some c => .ok (a, c)

/-- `*p = c`. -/
def store (f : ChunkedFifo α) (a : Nat) (c : Chunk α) : ChunkedFifo α :=
  { f with heap := Function.update f.heap a (some c) }

/-- `delete p`. -/
def delete (f : ChunkedFifo α) (a : Nat) : ChunkedFifo α :=
  { f with heap := Function.update f.heap a none }

/-- `new chunk` at the address `a`. -/
def newChunk (itemsPerChunk : Nat) (f : ChunkedFifo α) (a : Nat) (next : Option Nat) :
    Except Stop (ChunkedFifo α) :=
  match f.heap a with
  | some _ => .error .addressInUse
  | none => .ok (f.store a ⟨List.replicate itemsPerChunk .raw, next, 0, 0⟩)

/-- `empty`. -/
def empty (f : ChunkedFifo α) : Bool := f.frontChunk.isNone

/-- `size`. The items of the two end chunks are counted in 32 bits. -/
def size (itemsPerChunk : Nat) (f : ChunkedFifo α) : Except Stop Nat :=
  if f.frontChunk = none then .ok 0
  else do
    let (_, front) ← f.deref f.frontChunk
    if f.backChunk = f.frontChunk then return (front.last - front.first).toNat
    let (_, back) ← f.deref f.backChunk
    return (front.last - front.first + back.last - back.first).toNat +
      (f.nchunks - 2) * itemsPerChunk

/-- `front`. -/
def front (itemsPerChunk : Nat) (f : ChunkedFifo α) : Except Stop (Option (Cell α)) := do
  let (_, c) ← f.deref f.frontChunk
  return c.items[mask itemsPerChunk c.first]?

/-- `back`. -/
def back (itemsPerChunk : Nat) (f : ChunkedFifo α) : Except Stop (Option (Cell α)) := do
  let (_, c) ← f.deref f.backChunk
  return c.items[mask itemsPerChunk (c.last - 1)]?

/-- The end of `back_chunk_new`: the chunk `a` becomes the last one. -/
def linkBack (f : ChunkedFifo α) (a : Nat) : Except Stop (ChunkedFifo α) := do
  let old := f.backChunk
  let (_, c) ← f.deref (some a)
  let f := f.store a { c with next := none, first := 0, last := 0 }
  let f ← match old with
    | none => pure f
    | some o => do
      let (_, c) ← f.deref (some o)
      pure (f.store o { c with next := some a })
  return { f with
    backChunk := some a
    frontChunk := if f.frontChunk = none then some a else f.frontChunk
    nchunks := f.nchunks + 1 }

/-- `back_chunk_new`. The second component says that the allocator threw. -/
def backChunkNew (itemsPerChunk : Nat) (env : FifoEnv) (f : ChunkedFifo α) :
    Except Stop (ChunkedFifo α × Bool) :=
  match f.freeChunks with
  | some a => do
    let (_, c) ← f.deref (some a)
    let f ← linkBack { f with freeChunks := c.next, nfreeChunks := f.nfreeChunks - 1 } a
    return (f, false)
  | none =>
    -- Without a free chunk a new one is allocated, which may throw.
    match env.alloc 0 with
    | none => .ok (f, true)
    | some a => do
      let f ← f.newChunk itemsPerChunk a none
      let f ← f.linkBack a
      return (f, false)

/-- `ensure_room_back`. -/
def ensureRoomBack (itemsPerChunk : Nat) (env : FifoEnv) (f : ChunkedFifo α) :
    Except Stop (ChunkedFifo α × Bool) :=
  if f.backChunk = none then f.backChunkNew itemsPerChunk env
  else do
    let (_, c) ← f.deref f.backChunk
    if (c.last - c.first).toNat = itemsPerChunk then f.backChunkNew itemsPerChunk env
    else return (f, false)

/-- The loop of `undo_room_back`: the chunk whose next one is `old`. -/
def findPrevious (f : ChunkedFifo α) (old : Nat) : Nat → Option Nat → Except Stop (Nat × Chunk α)
  | 0, _ => .error .endless
  | bound + 1, p => do
    let (a, c) ← f.deref p
    if c.next = some old then return (a, c) else f.findPrevious old bound c.next

/-- The last chunk `a` is deleted, and the one before it becomes the last one. -/
def removeBack (f : ChunkedFifo α) (a : Nat) : Except Stop (ChunkedFifo α) := do
  let f := { f.delete a with nchunks := f.nchunks - 1 }
  if f.nchunks = 0 then return { f with backChunk := none, frontChunk := none }
  else
    let (b, c) ← f.findPrevious a f.nchunks f.frontChunk
    return { f.store b { c with next := none } with backChunk := some b }

/-- `undo_room_back`. -/
def undoRoomBack (f : ChunkedFifo α) : Except Stop (ChunkedFifo α) := do
  let (a, c) ← f.deref f.backChunk
  if c.first = c.last then f.removeBack a else return f

/-- `emplace_back` and `push_back`. The second component says that the call threw. -/
def pushBack (itemsPerChunk : Nat) (env : FifoEnv) (f : ChunkedFifo α) (x : α) :
    Except Stop (ChunkedFifo α × Bool) := do
  let (f, threw) ← f.ensureRoomBack itemsPerChunk env
  if threw then return (f, true)
  if env.ctorThrows then
    let f ← f.undoRoomBack
    return (f, true)
  let (a, c) ← f.deref f.backChunk
  return (f.store a { c with
    items := c.items.set (mask itemsPerChunk c.last) (.live x)
    last := c.last + 1 }, false)

/-- `front_chunk_delete`. `save_free_chunks` is 1. -/
def frontChunkDelete (f : ChunkedFifo α) : Except Stop (ChunkedFifo α) := do
  let (a, c) ← f.deref f.frontChunk
  let f := if f.nfreeChunks < 1 then
      { f.store a { c with next := f.freeChunks } with
        freeChunks := some a, nfreeChunks := f.nfreeChunks + 1 }
    else f.delete a
  return { f with
    backChunk := if f.backChunk = f.frontChunk then none else f.backChunk
    frontChunk := c.next
    nchunks := f.nchunks - 1 }

/-- `pop_front`. -/
def popFront (itemsPerChunk : Nat) (f : ChunkedFifo α) : Except Stop (ChunkedFifo α) := do
  let (a, c) ← f.deref f.frontChunk
  let c := { c with
    items := c.items.set (mask itemsPerChunk c.first) .raw
    first := c.first + 1 }
  let f := f.store a c
  if c.first = c.last then f.frontChunkDelete else return f

/-- The loop of `clear`. -/
def clearLoop (itemsPerChunk : Nat) (f : ChunkedFifo α) : Nat → Except Stop (ChunkedFifo α)
  | 0 => if f.empty then .ok f else .error .endless
  | bound + 1 =>
    if f.empty then .ok f
    else do
      let f ← f.popFront itemsPerChunk
      f.clearLoop itemsPerChunk bound

/-- `clear`. It pops as many items as there are. -/
def clear (itemsPerChunk : Nat) (f : ChunkedFifo α) : Except Stop (ChunkedFifo α) := do
  let n ← f.size itemsPerChunk
  f.clearLoop itemsPerChunk n

/-- The loop of `shrink_to_fit`. -/
def shrinkLoop (f : ChunkedFifo α) : Nat → Except Stop (ChunkedFifo α)
  | 0 => if f.freeChunks = none then .ok f else .error .endless
  | bound + 1 =>
    if f.freeChunks = none then .ok f
    else do
      let (a, c) ← f.deref f.freeChunks
      { f.delete a with freeChunks := c.next }.shrinkLoop bound

/-- `shrink_to_fit`. -/
def shrinkToFit (f : ChunkedFifo α) : Except Stop (ChunkedFifo α) := do
  let f ← f.shrinkLoop f.nfreeChunks
  return { f with nfreeChunks := 0 }

/-- The loop of `reserve`, where `k` chunks were allocated before. The second component says that the
allocator threw. -/
def reserveLoop (itemsPerChunk : Nat) (env : FifoEnv) (f : ChunkedFifo α) (k : Nat) :
    Nat → Except Stop (ChunkedFifo α × Bool)
  | 0 => .ok (f, false)
  | needed + 1 =>
    match env.alloc k with
    | none => .ok (f, true)
    | some a => do
      let f ← f.newChunk itemsPerChunk a f.freeChunks
      { f with freeChunks := some a, nfreeChunks := f.nfreeChunks + 1 }.reserveLoop
        itemsPerChunk env (k + 1) needed

/-- The pushes for which the back chunk has no room. -/
def needBeyondBack (itemsPerChunk : Nat) (f : ChunkedFifo α) (need : UInt64) :
    Except Stop UInt64 :=
  if f.backChunk = none then .ok need
  else do
    let (_, c) ← f.deref f.backChunk
    return need - (UInt64.ofNat itemsPerChunk - (c.last - c.first).toUInt64)

/-- `reserve`. The sums are those of `size_t`. -/
def reserve (itemsPerChunk : Nat) (env : FifoEnv) (f : ChunkedFifo α) (n : UInt64) :
    Except Stop (ChunkedFifo α × Bool) := do
  let size ← f.size itemsPerChunk
  let need ← f.needBeyondBack itemsPerChunk (n - UInt64.ofNat size)
  let ipc := UInt64.ofNat itemsPerChunk
  let neededChunks := (need + ipc - 1) / ipc
  if neededChunks.toNat ≤ f.nfreeChunks then return (f, false)
  f.reserveLoop itemsPerChunk env 0 (neededChunks.toNat - f.nfreeChunks)

/-! ### Sessions -/

/-- The calls on one queue. -/
inductive Call (α : Type) where
  | pushBack (x : α)
  | popFront
  | reserve (n : UInt64)
  | shrinkToFit
  | clear
  deriving DecidableEq, Repr

/-- What can happen to the queues. `move i j` is `i = std::move(j)`, or the construction of `i` from
`j`. -/
inductive Event (α : Type) where
  | call (env : FifoEnv) (i : Nat) (c : Call α)
  | move (i j : Nat)

/-- The call is allowed on a list with the elements `xs`. -/
def Allowed (xs : List α) : Call α → Prop
  | .popFront => xs ≠ []
  | _ => True

/-- Whether a call is allowed can be computed. -/
instance (xs : List α) (c : Call α) : Decidable (Allowed xs c) := by
  cases c <;> simp only [Allowed] <;> infer_instance

/-- The plain list. -/
def listCall (xs : List α) : Call α → List α
  | .pushBack x => xs ++ [x]
  | .popFront => xs.tail
  | .reserve _ => xs
  | .shrinkToFit => xs
  | .clear => []

/-- The call on the queue, and if it threw. -/
def fifoCall (itemsPerChunk : Nat) (env : FifoEnv) (f : ChunkedFifo α) :
    Call α → Except Stop (ChunkedFifo α × Bool)
  | .pushBack x => f.pushBack itemsPerChunk env x
  | .popFront => (f.popFront itemsPerChunk).map (·, false)
  | .reserve n => f.reserve itemsPerChunk env n
  | .shrinkToFit => f.shrinkToFit.map (·, false)
  | .clear => (f.clear itemsPerChunk).map (·, false)

/-- The queues and the lists. A call that threw does not change the list. -/
structure Session (α : Type) where
  fifos : Nat → ChunkedFifo α
  lists : Nat → List α
  fault : Bool

namespace Session

/-- All queues before the first call. -/
def create : Session α := ⟨fun _ => ChunkedFifo.create, fun _ => [], false⟩

/-- One event. A pop needs an item, and no allocator returns an address that is in use. -/
def step (itemsPerChunk : Nat) (s : Session α) : Event α → Option (Session α)
  | .call env i c =>
    if s.fault then none
    else if Allowed (s.lists i) c then
      match fifoCall itemsPerChunk env (s.fifos i) c with
      | .error .addressInUse => none
      | .error _ => some { s with fault := true }
      | .ok (f, threw) =>
        some { s with
          fifos := Function.update s.fifos i f
          lists := if threw then s.lists
            else Function.update s.lists i (listCall (s.lists i) c) }
    else none
  | .move i j =>
    if s.fault then none
    else if i = j then some s
    else
      some { s with
        fifos := Function.update (Function.update s.fifos i (s.fifos j)) j ChunkedFifo.create
        lists := Function.update (Function.update s.lists i (s.lists j)) j [] }

end Session

end ChunkedFifo

end Netstar.Spec.Core
