import Netstar.Spec.Core.CircularBuffer

/-!
# `Netstar.Spec.Core.BufferLifetimes`: the lifetimes of the elements of a `circular_buffer`

The operations of `circular_buffer` once more, in a language that watches the lifetimes. An object is
constructed in raw memory only, it is read and assigned while it exists, it is destroyed once, and
storage is freed when no object is left in it. `Misuse` says which of the rules an operation breaks.

Two passes of `transfer.hh` move the elements to a larger storage: the first one constructs the new
objects, and the second one destroys the old ones unless they were moved without a risk.

`Session` has any number of buffers. `Constructed` says that exactly the slots from `begin` to `end`
hold an object.
-/

set_option autoImplicit false

namespace Netstar.Spec.Core.BufferLifetimes

open Netstar.Spec.Core.CircularBuffer (indices Call)

variable {α : Type}

/-- A broken rule, or another reason why the program has no meaning. -/
inductive Misuse where
  | undefined (u : Undefined)
  | constructedTwice
  | destroyedTwice
  | notConstructed
  | leaked
  deriving DecidableEq, Repr

/-! ### Objects in storage -/

/-- `construct(&cells[p], ...)`. -/
def construct (cells : List (Cell α)) (p : Nat) (c : Cell α) : Except Misuse (List (Cell α)) :=
  match cells[p]? with
  | none => .error (.undefined .outOfBounds)
  | some .raw => .ok (cells.set p c)
  | some _ => .error .constructedTwice

/-- `destroy(&cells[p])`. -/
def destroy (cells : List (Cell α)) (p : Nat) : Except Misuse (List (Cell α)) :=
  match cells[p]? with
  | none => .error (.undefined .outOfBounds)
  | some .raw => .error .destroyedTwice
  | some _ => .ok (cells.set p .raw)

/-- The object at `cells[p]`. -/
def object (cells : List (Cell α)) (p : Nat) : Except Misuse (Cell α) :=
  match cells[p]? with
  | none => .error (.undefined .outOfBounds)
  | some .raw => .error .notConstructed
  | some c => .ok c

/-- `cells[target] = std::move(cells[source])`. -/
def assign (cells : List (Cell α)) (source target : Nat) : Except Misuse (List (Cell α)) := do
  let c ← object cells source
  let _ ← object cells target
  return (cells.set target c).set source .moved

/-- `deallocate(cells)`. -/
def deallocate (cells : List (Cell α)) : Except Misuse Unit :=
  if cells.all (fun c => match c with | .raw => true | _ => false) then .ok () else .error .leaked

/-! ### The operations -/

/-- The objects at the indices are destroyed, one after the other. -/
def destroyAll (b : CircularBuffer α) : List UInt64 → Except Misuse (CircularBuffer α)
  | [] => .ok b
  | i :: is => do
    let cells ← destroy b.storage (b.mask i)
    destroyAll { b with storage := cells } is

/-- `~circular_buffer()`. -/
def destructor (b : CircularBuffer α) : Except Misuse Unit := do
  let b ← destroyAll b (indices b.first b.last)
  deallocate b.storage

/-- The loop over `transfer_pass1` with the buffer, the new storage and the position `p` in it. The
last component says that a copy threw. -/
def transferPass1 (env : Env) (b : CircularBuffer α) (fresh : List (Cell α)) (p : Nat) :
    List UInt64 → Except Misuse (CircularBuffer α × List (Cell α) × Nat × Bool)
  | [] => .ok (b, fresh, p, false)
  | i :: is => do
    let c ← object b.storage (b.mask i)
    if env.nothrowMove then
      let fresh ← construct fresh p c
      -- a move that cannot throw destroys its source at once
      let cells ← destroy b.storage (b.mask i)
      transferPass1 env { b with storage := cells } fresh (p + 1) is
    -- Otherwise the elements are copied, and the old ones stay until the second pass.
    else if env.copyThrowsAt = some p then return (b, fresh, p, true)
    else
      let fresh ← construct fresh p c
      transferPass1 env b fresh (p + 1) is

/-- The loop of the `catch` block of `expand`: the objects before `p` are destroyed. -/
def undo (fresh : List (Cell α)) : Nat → Except Misuse (List (Cell α))
  | 0 => .ok fresh
  | p + 1 => do
    let fresh ← destroy fresh p
    undo fresh p

/-- The loop over `transfer_pass2`. -/
def transferPass2 (env : Env) (b : CircularBuffer α) (is : List UInt64) :
    Except Misuse (CircularBuffer α) :=
  if env.nothrowMove then .ok b else destroyAll b is

/-- `expand(new_cap)`. The second component says that it threw. -/
def expandTo (env : Env) (b : CircularBuffer α) (newCap : UInt64) :
    Except Misuse (CircularBuffer α × Bool) := do
  if env.badAlloc || decide (ptrdiffMax < newCap) then return (b, true)
  let visited := indices b.first b.last
  let (b, fresh, p, threw) ← transferPass1 env b (List.replicate newCap.toNat .raw) 0 visited
  if threw then
    let fresh ← undo fresh p
    deallocate fresh
    return (b, true)
  let b ← transferPass2 env b visited
  deallocate b.storage
  return (⟨fresh, 0, UInt64.ofNat p, newCap⟩, false)

/-- `expand()`. -/
def expand (env : Env) (b : CircularBuffer α) : Except Misuse (CircularBuffer α × Bool) :=
  expandTo env b (max (b.capacity * 2) 1)

/-- `maybe_expand()`. -/
def maybeExpand (env : Env) (b : CircularBuffer α) : Except Misuse (CircularBuffer α × Bool) :=
  if b.capacity < b.last - b.first + 1 then expand env b else .ok (b, false)

/-- `reserve`. -/
def reserve (env : Env) (b : CircularBuffer α) (size : UInt64) :
    Except Misuse (CircularBuffer α × Bool) := do
  if b.capacity < size then
    let newCap ← (log2ceil size >>= shiftOne).mapError .undefined
    expandTo env b newCap
  else return (b, false)

/-- `push_front` and `emplace_front`. -/
def pushFront (env : Env) (b : CircularBuffer α) (x : α) :
    Except Misuse (CircularBuffer α × Bool) := do
  let (b, threw) ← maybeExpand env b
  if threw || env.ctorThrows then return (b, true)
  let cells ← construct b.storage (b.mask (b.first - 1)) (.live x)
  return ({ b with storage := cells, first := b.first - 1 }, false)

/-- `push_back` and `emplace_back`. -/
def pushBack (env : Env) (b : CircularBuffer α) (x : α) :
    Except Misuse (CircularBuffer α × Bool) := do
  let (b, threw) ← maybeExpand env b
  if threw || env.ctorThrows then return (b, true)
  let cells ← construct b.storage (b.mask b.last) (.live x)
  return ({ b with storage := cells, last := b.last + 1 }, false)

/-- `pop_front`. -/
def popFront (b : CircularBuffer α) : Except Misuse (CircularBuffer α) := do
  let cells ← destroy b.storage (b.mask b.first)
  return { b with storage := cells, first := b.first + 1 }

/-- `pop_back`. -/
def popBack (b : CircularBuffer α) : Except Misuse (CircularBuffer α) := do
  let cells ← destroy b.storage (b.mask (b.last - 1))
  return { b with storage := cells, last := b.last - 1 }

/-- `std::move_backward` over the `n` elements before `source`, to the places before `target`. -/
def moveBackward (b : CircularBuffer α) (source target : UInt64) :
    Nat → Except Misuse (CircularBuffer α)
  | 0 => .ok b
  | n + 1 => do
    let cells ← assign b.storage (b.mask (source - 1)) (b.mask (target - 1))
    moveBackward { b with storage := cells } (source - 1) (target - 1) n

/-- `std::move` over the `n` elements from `source` on, to the places from `target` on. -/
def moveForward (b : CircularBuffer α) (source target : UInt64) :
    Nat → Except Misuse (CircularBuffer α)
  | 0 => .ok b
  | n + 1 => do
    let cells ← assign b.storage (b.mask source) (b.mask target)
    moveForward { b with storage := cells } (source + 1) (target + 1) n

/-- `while (i < e) destroy(&*i++)`. The indices are compared as numbers. -/
def destroyUpTo (b : CircularBuffer α) (i e : UInt64) : Except Misuse (CircularBuffer α) :=
  if i < e then destroyAll b (indices i e) else .ok b

/-- `erase(begin() + from, begin() + to)`. -/
def erase (b : CircularBuffer α) (i j : UInt64) : Except Misuse (CircularBuffer α) := do
  let f := b.first + i
  let l := b.first + j
  if f = l then return b
  if (f - b.first).toInt64 < (b.last - l).toInt64 then
    let newStart := l - (f - b.first)
    let b ← moveBackward b f l (f - b.first).toNat
    let b ← destroyUpTo b b.first newStart
    return { b with first := newStart }
  else
    let newEnd := f + (b.last - l)
    let b ← moveForward b l f (b.last - l).toNat
    let b ← destroyUpTo b newEnd b.last
    return { b with last := newEnd }

/-! ### Sessions -/

/-- What can happen to the buffers. `move i j` is `i = std::move(j)`, or the construction of `i` from
`j`. -/
inductive Event (α : Type) where
  | call (env : Env) (i : Nat) (c : Call α)
  | move (i j : Nat)
  | destruct (i : Nat)

/-- The call is allowed on a buffer with `n` elements. -/
def Allowed (n : Nat) : Call α → Prop
  | .popFront => n ≠ 0
  | .popBack => n ≠ 0
  | .erase i j => i ≤ j ∧ j ≤ n
  | _ => True

/-- Whether a call is allowed can be computed. -/
instance (n : Nat) : (c : Call α) → Decidable (Allowed n c)
  | .pushFront _ | .pushBack _ | .reserve _ => .isTrue trivial
  | .popFront | .popBack => inferInstanceAs (Decidable (n ≠ 0))
  | .erase i j => inferInstanceAs (Decidable (i ≤ j ∧ j ≤ n))

/-- The call on the buffer. The second component says that it threw. -/
def bufferCall (env : Env) (b : CircularBuffer α) :
    Call α → Except Misuse (CircularBuffer α × Bool)
  | .pushFront x => pushFront env b x
  | .pushBack x => pushBack env b x
  | .popFront => (popFront b).map (·, false)
  | .popBack => (popBack b).map (·, false)
  | .reserve size => reserve env b size
  | .erase i j => (erase b (UInt64.ofNat i) (UInt64.ofNat j)).map (·, false)

/-- The buffers, and the first rule that was broken. -/
structure Session (α : Type) where
  buffers : Nat → CircularBuffer α
  misuse : Option Misuse

namespace Session

/-- All buffers before the first call. -/
def create : Session α := ⟨fun _ => CircularBuffer.create, none⟩

/-- One event. -/
def step (s : Session α) : Event α → Option (Session α)
  | .call env i c =>
    if s.misuse.isSome then none
    else if Allowed (s.buffers i).size.toNat c then
      match bufferCall env (s.buffers i) c with
      | .error e => some { s with misuse := some e }
      | .ok (b, _) => some { s with buffers := Function.update s.buffers i b }
    else none
  | .move i j =>
    if s.misuse.isSome then none
    else if i = j then some s
    else
      match destructor (s.buffers i) with
      | .error e => some { s with misuse := some e }
      | .ok _ =>
        some { s with
          buffers := Function.update (Function.update s.buffers i (s.buffers j)) j
            CircularBuffer.create }
  | .destruct i =>
    if s.misuse.isSome then none
    else
      match destructor (s.buffers i) with
      | .error e => some { s with misuse := some e }
      | .ok _ => some { s with buffers := Function.update s.buffers i CircularBuffer.create }

end Session

/-- Exactly the slots from `begin` to `end` hold an object. -/
def Constructed (b : CircularBuffer α) : Prop :=
  (∀ i ∈ indices b.first b.last, b.mask i < b.storage.length) ∧
    ∀ p < b.storage.length,
      b.storage[p]? ≠ some .raw ↔ ∃ i ∈ indices b.first b.last, b.mask i = p

/-- No rule is broken so far, and every buffer has its objects where its counters say. -/
def LifetimesRight (s : Session α) : Prop :=
  s.misuse = none ∧ ∀ i, Constructed (s.buffers i)

/-- The counters of the slots that `erase` vacates do not wrap: these are the first ones when fewer
elements are before the erased range than behind it, and the last ones otherwise. -/
def InOrder (b : CircularBuffer α) (i j : Nat) : Prop :=
  if i < b.size.toNat - j then b.first.toNat + (j - i) < 2 ^ 64 else j - i ≤ b.last.toNat

/-- The event does not erase over a counter that wraps, and it does not reserve a size for which
`log2ceil` and the shift have no result. -/
def KeepsLifetimes (s : Session α) : Event α → Prop
  | .call _ i (.erase p q) => p < q → InOrder (s.buffers i) p q
  | .call _ i (.reserve size) => (s.buffers i).capacity < size → size ≠ 1 ∧ size.toNat ≤ 2 ^ 63
  | _ => True

end Netstar.Spec.Core.BufferLifetimes
