import Netstar.Lib.Run
import Netstar.Spec.Core.Bitops

/-!
# `Netstar.Spec.Core.CircularBuffer`: `circular_buffer`

A cell of the storage is raw memory, an object, or an object that was moved from. `begin`, `end` and
the capacity are 64 bits wide. A write outside the storage is undefined.

A push takes its argument by reference, and the constructor of the new element reads it after
`maybe_expand`. The argument can be an element of the buffer itself (`Arg`). An expansion has freed the
storage that such a reference points into, and the read is undefined then.

The memory allocator and the constructors of the elements may throw. `Env` says what they do in one
call: `bad_alloc`, the position of the element whose copy throws when the storage grows, and whether
the constructor of a new element throws. An element type that is nothrow movable is moved, and
nothing throws then. `std::allocator` refuses more than `PTRDIFF_MAX` bytes.

`Session` has any number of buffers, and beside each of them the plain deque of the same calls.
-/

set_option autoImplicit false

namespace Netstar.Spec.Core

/-- One element of the storage. -/
inductive Cell (α : Type) where
  | raw
  | live (x : α)
  | moved
  deriving DecidableEq, Repr

/-- What the environment does in one call. -/
structure Env where
  badAlloc : Bool
  nothrowMove : Bool
  copyThrowsAt : Option Nat
  ctorThrows : Bool
  deriving DecidableEq, Repr

/-- The argument of a push: something outside the buffer, or the element with the given index. -/
inductive Arg (α : Type) where
  | value (x : α)
  | element (i : Nat)
  deriving DecidableEq, Repr

/-- `PTRDIFF_MAX`. -/
def ptrdiffMax : UInt64 := 0x7fffffffffffffff

/-- `circular_buffer::impl`. `end` is a word of the language, so the counters are `first` and
`last`. -/
structure CircularBuffer (α : Type) where
  storage : List (Cell α)
  first : UInt64
  last : UInt64
  capacity : UInt64
  deriving DecidableEq, Repr

namespace CircularBuffer

variable {α : Type}

/-- `circular_buffer()`. -/
def create : CircularBuffer α := ⟨[], 0, 0, 0⟩

/-- `mask`. -/
def mask (b : CircularBuffer α) (idx : UInt64) : Nat := (idx &&& (b.capacity - 1)).toNat

/-- `empty`. -/
def empty (b : CircularBuffer α) : Bool := b.first == b.last

/-- `size`. -/
def size (b : CircularBuffer α) : UInt64 := b.last - b.first

/-- The object in a cell of the storage. -/
def read (b : CircularBuffer α) (idx : UInt64) : Option α :=
  match b.storage[b.mask idx]? with
  | some (.live x) => some x
  | _ => none

/-- `front`. -/
def front (b : CircularBuffer α) : Option α := b.read b.first

/-- `back`. -/
def back (b : CircularBuffer α) : Option α := b.read (b.last - 1)

/-- `operator[]`. -/
def get (b : CircularBuffer α) (idx : UInt64) : Option α := b.read (b.first + idx)

/-- The indices from `i` up to `e`, as `for (; i != e; ++i)` visits them. -/
def indices (i e : UInt64) : List UInt64 :=
  (List.range (e - i).toNat).map fun k => i + UInt64.ofNat k

/-- The objects that `for_each` and an iterator from `begin()` to `end()` visit. -/
def iterate (b : CircularBuffer α) : List (Option α) := (indices b.first b.last).map b.read

/-- `storage[mask(idx)] = c`, a construction, an assignment or a destruction. -/
def write (b : CircularBuffer α) (idx : UInt64) (c : Cell α) :
    Except Undefined (CircularBuffer α) :=
  if b.mask idx < b.storage.length then .ok { b with storage := b.storage.set (b.mask idx) c }
  else .error .outOfBounds

/-- The loop over `transfer_pass1` with the buffer, the new storage and the position in it. The last
component says that a copy threw. -/
def transferPass1 (env : Env) (b : CircularBuffer α) (fresh : List (Cell α)) (p : Nat) :
    List UInt64 → Except Undefined (CircularBuffer α × List (Cell α) × Bool)
  | [] => .ok (b, fresh, false)
  | i :: is => do
    if fresh.length ≤ p then throw .outOfBounds
    let object := b.storage.getD (b.mask i) .raw
    if env.nothrowMove then
      let b ← b.write i .raw
      transferPass1 env b (fresh.set p object) (p + 1) is
    else if env.copyThrowsAt = some p then return (b, fresh, true)
    else transferPass1 env b (fresh.set p object) (p + 1) is

/-- `expand(new_cap)`. The second component says that it threw. The old storage is freed at the end,
and the new one is freed when a copy threw. -/
def expandTo (env : Env) (b : CircularBuffer α) (newCap : UInt64) :
    Except Undefined (CircularBuffer α × Bool) := do
  if env.badAlloc || decide (ptrdiffMax < newCap) then return (b, true)
  let visited := indices b.first b.last
  let (b, fresh, threw) ←
    transferPass1 env b (List.replicate newCap.toNat .raw) 0 visited
  if threw then return (b, true)
  return (⟨fresh, 0, UInt64.ofNat visited.length, newCap⟩, false)

/-- `expand()`. -/
def expand (env : Env) (b : CircularBuffer α) : Except Undefined (CircularBuffer α × Bool) :=
  b.expandTo env (max (b.capacity * 2) 1)

/-- The condition of `maybe_expand()`: there is no room for one more element. -/
def full (b : CircularBuffer α) : Bool := b.capacity < b.last - b.first + 1

/-- `maybe_expand()`. -/
def maybeExpand (env : Env) (b : CircularBuffer α) : Except Undefined (CircularBuffer α × Bool) :=
  if b.full then b.expand env else .ok (b, false)

/-- `reserve`. -/
def reserve (env : Env) (b : CircularBuffer α) (size : UInt64) :
    Except Undefined (CircularBuffer α × Bool) := do
  if b.capacity < size then
    let newCap ← shiftOne (← log2ceil size)
    b.expandTo env newCap
  else return (b, false)

/-- What the constructor of a new element reads. `expanded` says that the storage is a new one and the
old one was freed. -/
def argument (b : CircularBuffer α) (expanded : Bool) : Arg α → Except Undefined α
  | .value x => .ok x
  | .element i =>
    if expanded then .error .freedStorage
    else
      match b.get (UInt64.ofNat i) with
      | some x => .ok x
      | none => .error .outOfBounds

/-- `push_front` and `emplace_front`. -/
def pushFront (env : Env) (b : CircularBuffer α) (arg : Arg α) :
    Except Undefined (CircularBuffer α × Bool) := do
  let expanded := b.full
  let (b, threw) ← b.maybeExpand env
  if threw then return (b, true)
  let x ← b.argument expanded arg
  if env.ctorThrows then return (b, true)
  let b ← b.write (b.first - 1) (.live x)
  return ({ b with first := b.first - 1 }, false)

/-- `push_back` and `emplace_back`. -/
def pushBack (env : Env) (b : CircularBuffer α) (arg : Arg α) :
    Except Undefined (CircularBuffer α × Bool) := do
  let expanded := b.full
  let (b, threw) ← b.maybeExpand env
  if threw then return (b, true)
  let x ← b.argument expanded arg
  if env.ctorThrows then return (b, true)
  let b ← b.write b.last (.live x)
  return ({ b with last := b.last + 1 }, false)

/-- `pop_front`. -/
def popFront (b : CircularBuffer α) : Except Undefined (CircularBuffer α) := do
  let b ← b.write b.first .raw
  return { b with first := b.first + 1 }

/-- `pop_back`. -/
def popBack (b : CircularBuffer α) : Except Undefined (CircularBuffer α) := do
  let b ← b.write (b.last - 1) .raw
  return { b with last := b.last - 1 }

/-- `*to = std::move(*from)`. -/
def moveAssign (b : CircularBuffer α) (source target : UInt64) :
    Except Undefined (CircularBuffer α) := do
  let object := b.storage.getD (b.mask source) .raw
  let b ← b.write target object
  b.write source .moved

/-- `std::move_backward` over the `n` elements before `source`, to the places before `target`. -/
def moveBackward (b : CircularBuffer α) (source target : UInt64) :
    Nat → Except Undefined (CircularBuffer α)
  | 0 => .ok b
  | n + 1 => do
    let b ← b.moveAssign (source - 1) (target - 1)
    b.moveBackward (source - 1) (target - 1) n

/-- `std::move` over the `n` elements from `source` on, to the places from `target` on. -/
def moveForward (b : CircularBuffer α) (source target : UInt64) :
    Nat → Except Undefined (CircularBuffer α)
  | 0 => .ok b
  | n + 1 => do
    let b ← b.moveAssign source target
    b.moveForward (source + 1) (target + 1) n

/-- `while (i < e) destroy(&*i++)`. The indices are compared as numbers. -/
def destroyUpTo (b : CircularBuffer α) (i e : UInt64) : Except Undefined (CircularBuffer α) :=
  if i < e then (indices i e).foldlM (fun b i => b.write i .raw) b else .ok b

/-- `erase(begin() + from, begin() + to)`. Distances are those of the counters. -/
def erase (b : CircularBuffer α) (i j : UInt64) : Except Undefined (CircularBuffer α) := do
  let f := b.first + i
  let l := b.first + j
  if f = l then return b
  if (f - b.first).toInt64 < (b.last - l).toInt64 then
    -- Fewer elements stand in front of the gap than behind it.
    let n := (f - b.first).toNat
    let newStart := l - (f - b.first)
    let b ← b.moveBackward f l n
    let b ← b.destroyUpTo b.first newStart
    return { b with first := newStart }
  else
    let n := (b.last - l).toNat
    let newEnd := f + (b.last - l)
    let b ← b.moveForward l f n
    let b ← b.destroyUpTo newEnd b.last
    return { b with last := newEnd }

/-! ### Sessions -/

/-- The calls on one buffer, with arguments of the type `β`. -/
inductive Call (β : Type) where
  | pushFront (x : β)
  | pushBack (x : β)
  | popFront
  | popBack
  | reserve (size : UInt64)
  | erase (i j : Nat)
  deriving DecidableEq, Repr

/-- What can happen to the buffers. `move i j` is `i = std::move(j)`, or the construction of `i` from
`j`. -/
inductive Event (α : Type) where
  | call (env : Env) (i : Nat) (c : Call (Arg α))
  | move (i j : Nat)
  deriving DecidableEq, Repr

/-- The call is allowed on a deque with the elements `xs`. -/
def Allowed (xs : List α) : Call (Arg α) → Prop
  | .pushFront (.element i) => i < xs.length
  | .pushBack (.element i) => i < xs.length
  | .popFront => xs ≠ []
  | .popBack => xs ≠ []
  | .erase i j => i ≤ j ∧ j ≤ xs.length
  | _ => True

/-- Whether a call is allowed can be computed. -/
instance (xs : List α) : (c : Call (Arg α)) → Decidable (Allowed xs c)
  | .pushFront (.value _) | .pushBack (.value _) | .reserve _ => .isTrue trivial
  | .pushFront (.element i) | .pushBack (.element i) => inferInstanceAs (Decidable (i < xs.length))
  | .popFront | .popBack => decidable_of_iff (xs.isEmpty = false) (by cases xs <;> simp [Allowed])
  | .erase i j => inferInstanceAs (Decidable (i ≤ j ∧ j ≤ xs.length))

/-- What the argument is for a deque with the elements `xs`. -/
def argValue (xs : List α) : Arg α → List α
  | .value x => [x]
  | .element i => xs[i]?.toList

/-- The plain deque. -/
def dequeCall (xs : List α) : Call (Arg α) → List α
  | .pushFront x => argValue xs x ++ xs
  | .pushBack x => xs ++ argValue xs x
  | .popFront => xs.tail
  | .popBack => xs.dropLast
  | .reserve _ => xs
  | .erase i j => xs.take i ++ xs.drop j

/-- The call on the buffer, and if it threw. -/
def bufferCall (env : Env) (b : CircularBuffer α) :
    Call (Arg α) → Except Undefined (CircularBuffer α × Bool)
  | .pushFront x => b.pushFront env x
  | .pushBack x => b.pushBack env x
  | .popFront => b.popFront.map (·, false)
  | .popBack => b.popBack.map (·, false)
  | .reserve size => b.reserve env size
  | .erase i j => (b.erase (UInt64.ofNat i) (UInt64.ofNat j)).map (·, false)

/-- The buffers and the deques. A call that threw does not change the deque. -/
structure Session (α : Type) where
  buffers : Nat → CircularBuffer α
  deques : Nat → List α
  undefined : Bool

namespace Session

/-- All buffers before the first call. -/
def create : Session α := ⟨fun _ => CircularBuffer.create, fun _ => [], false⟩

/-- One event. -/
def step (s : Session α) : Event α → Option (Session α)
  | .call env i c =>
    if s.undefined then none
    else if Allowed (s.deques i) c then
      match bufferCall env (s.buffers i) c with
      | .error _ => some { s with undefined := true }
      | .ok (b, threw) =>
        some { s with
          buffers := Function.update s.buffers i b
          deques := if threw then s.deques
            else Function.update s.deques i (dequeCall (s.deques i) c) }
    else none
  | .move i j =>
    if s.undefined then none
    else if i = j then some s
    else
      some { s with
        buffers := Function.update (Function.update s.buffers i (s.buffers j)) j
          CircularBuffer.create
        deques := Function.update (Function.update s.deques i (s.deques j)) j [] }

end Session

end CircularBuffer

end Netstar.Spec.Core
