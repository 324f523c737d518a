import Netstar.Lib.Run
import Netstar.Spec.Core.Bitops

/-!
# `Netstar.Spec.Core.TimerSet`: `timer_set` and the bit set helpers

Time stamps are signed and 64 bits wide, so there are 64 buckets. A bit set of 64 bits is a
`BitVec 64`. A timer is a number with its timeout. `TimerFault` says where the program stops: at
`abort()`, at the assertion in `get_index`, at an operation that is undefined, or because a timer is
not in the list from which it is erased. A loop of the source that ends by itself has a bound here,
and `endless` says that the bound was not enough.

`Session` keeps the timers that were put in and neither removed nor expired, and what the last
`expire` returned beside what was due.
-/

set_option autoImplicit false

namespace Netstar.Spec.Core

/-- A timer and its `get_timeout()`. -/
structure Timer where
  id : Nat
  timeout : Int64
  deriving DecidableEq, Repr

/-- Why the program stops. -/
inductive TimerFault where
  | aborted
  | assertion
  | undefined (u : Undefined)
  | notInList
  | endless
  deriving DecidableEq, Repr

/-! ### Bit sets -/

namespace Bitset

/-- `bitset[i] = value`. -/
def assign (bits : BitVec 64) (i : Nat) (value : Bool) : BitVec 64 :=
  if value then bits ||| BitVec.twoPow 64 i else bits &&& ~~~ BitVec.twoPow 64 i

/-- `get_first_set`, from `__builtin_ctzl`. -/
def getFirstSet (bits : BitVec 64) : Except TimerFault Nat :=
  match (List.range 64).find? (bits.getLsbD ·) with
  | some i => .ok i
  | none => .error (.undefined .countOfZero)

/-- `get_last_set`. -/
def getLastSet (bits : BitVec 64) : Except TimerFault Nat := do
  let zeros ← (countLeadingZeros (.ofBitVec bits)).mapError .undefined
  return 63 - zeros

/-- `set_iterator::advance`. The iterator is at its end when the index is -1. -/
def advance (bits : BitVec 64) (index : Int) : Except TimerFault (BitVec 64 × Int) :=
  if bits = 0 then .ok (bits, -1)
  else do
    let first ← getFirstSet bits
    return (bits >>> (first + 1), index + (first + 1))

/-- The indices from an iterator to the end. -/
def visit (bits : BitVec 64) (index : Int) : Nat → Except TimerFault (List Nat)
  | 0 => .error .endless
  | bound + 1 =>
    if index = -1 then .ok []
    else do
      let (bits, next) ← advance bits index
      let rest ← visit bits next bound
      return index.toNat :: rest

/-- `for_each_set`. A set has at most 64 elements. -/
def forEachSet (bits : BitVec 64) (offset : Nat) : Except TimerFault (List Nat) := do
  let (bits, index) ← advance (bits >>> offset) (offset - 1)
  visit bits index 65

end Bitset

/-! ### The timer set -/

/-- `timer_set`. -/
structure TimerSet where
  buckets : Nat → List Timer
  last : Int64
  next : Int64
  nonEmptyBuckets : BitVec 64

namespace TimerSet

open Bitset

/-- `max_timestamp`. -/
def maxTimestamp : Int64 := Int64.maxValue

/-- `n_buckets`. `timestamp_bits` is 63. -/
def nBuckets : Nat := 64

/-- `timer_set()`. -/
def create : TimerSet := ⟨fun _ => [], 0, maxTimestamp, 0⟩

/-- `count_leading_zeros<long>`. -/
def countLeadingZerosLong (value : Int64) : Except TimerFault Nat := do
  let zeros ← (countLeadingZeros value.toUInt64).mapError .undefined
  return zeros - 1

/-- `get_index`. -/
def getIndex (last timestamp : Int64) : Except TimerFault Nat :=
  if timestamp ≤ last then .ok (nBuckets - 1)
  else do
    let index ← countLeadingZerosLong (timestamp ^^^ last)
    if index < nBuckets - 1 then return index else throw .assertion

/-- `insert`. -/
def insert (s : TimerSet) (timer : Timer) : Except TimerFault (TimerSet × Bool) := do
  let index ← getIndex s.last timer.timeout
  let s := { s with
    buckets := Function.update s.buckets index (s.buckets index ++ [timer])
    nonEmptyBuckets := assign s.nonEmptyBuckets index true }
  if timer.timeout < s.next then return ({ s with next := timer.timeout }, true)
  else return (s, false)

/-- `remove`. -/
def remove (s : TimerSet) (timer : Timer) : Except TimerFault TimerSet := do
  let index ← getIndex s.last timer.timeout
  if timer ∈ s.buckets index then
    let list := (s.buckets index).erase timer
    return { s with
      buckets := Function.update s.buckets index list
      nonEmptyBuckets :=
        if list.isEmpty then assign s.nonEmptyBuckets index false else s.nonEmptyBuckets }
  else throw .notInList

/-- The body of the first loop of `expire`. -/
def spliceBucket (r : TimerSet × List Timer) (i : Nat) : TimerSet × List Timer :=
  ({ r.1 with
      buckets := Function.update r.1.buckets i []
      nonEmptyBuckets := assign r.1.nonEmptyBuckets i false },
    r.2 ++ r.1.buckets i)

/-- The loop of `expire` over the bucket `index`. -/
def expireBucket (now : Int64) (index : Nat) (s : TimerSet) (exp : List Timer) :
    Nat → Except TimerFault (TimerSet × List Timer)
  | 0 => if (s.buckets index).isEmpty then .ok (s, exp) else .error .endless
  | bound + 1 =>
    match s.buckets index with
    | [] => .ok (s, exp)
    | timer :: list => do
      let s := { s with buckets := Function.update s.buckets index list }
      if timer.timeout ≤ now then s.expireBucket now index (exp ++ [timer]) bound
      else
        let (s, _) ← s.insert timer
        s.expireBucket now index exp bound

/-- The end of `expire`: `_next` from the last bucket that is not empty. -/
def recomputeNext (s : TimerSet) : Except TimerFault TimerSet :=
  if s.next = maxTimestamp ∧ s.nonEmptyBuckets ≠ 0 then do
    let i ← getLastSet s.nonEmptyBuckets
    return { s with next := (s.buckets i).foldl (fun next timer => min next timer.timeout) s.next }
  else .ok s

/-- `expire`. -/
def expire (s : TimerSet) (now : Int64) : Except TimerFault (TimerSet × List Timer) := do
  if now < s.last then throw .aborted
  let index ← getIndex s.last now
  let visited ← forEachSet s.nonEmptyBuckets (index + 1)
  let (s, exp) := visited.foldl spliceBucket (s, [])
  let s := { s with last := now, next := maxTimestamp }
  let (s, exp) ← s.expireBucket now index exp (s.buckets index).length
  let s := { s with
    nonEmptyBuckets := assign s.nonEmptyBuckets index (!(s.buckets index).isEmpty) }
  let s ← s.recomputeNext
  return (s, exp)

/-- `get_next_timeout`. -/
def getNextTimeout (s : TimerSet) : Int64 := max s.last s.next

/-- `clear`. The bit set and `_next` stay as they are. -/
def clear (s : TimerSet) : Except TimerFault TimerSet := do
  let visited ← forEachSet s.nonEmptyBuckets 0
  return { s with
    buckets := visited.foldl (fun buckets i => Function.update buckets i []) s.buckets }

/-- `size`. -/
def size (s : TimerSet) : Except TimerFault Nat := do
  let visited ← forEachSet s.nonEmptyBuckets 0
  return visited.foldl (fun res i => res + (s.buckets i).length) 0

/-- `empty`. -/
def empty (s : TimerSet) : Bool := s.nonEmptyBuckets == 0

/-- The calls. -/
inductive Call where
  | insert (timer : Timer)
  | remove (timer : Timer)
  | expire (now : Int64)
  deriving DecidableEq, Repr

/-- A timer set and what its user knows. `previous` is the time of the last `expire`. -/
structure Session where
  set : TimerSet
  active : List Timer
  previous : Option Int64
  due : List Timer
  returned : List Timer
  fault : Option TimerFault

namespace Session

/-- A timer set before the first call. -/
def create : Session := ⟨TimerSet.create, [], none, [], [], none⟩

/-- The call is one that the set allows: a timer is inserted once, removed only while it is active,
and the times of `expire` do not go back. -/
def allowed (s : Session) : Call → Bool
  | .insert timer => timer.id ∉ s.active.map (·.id)
  | .remove timer => timer ∈ s.active
  | .expire now => s.previous.all (· ≤ now)

/-- The call on the timer set. -/
def perform (s : Session) : Call → Except TimerFault Session
  | .insert timer => do
    let (set, _) ← s.set.insert timer
    return { s with set := set, active := s.active ++ [timer] }
  | .remove timer => do
    let set ← s.set.remove timer
    return { s with set := set, active := s.active.erase timer }
  | .expire now => do
    let (set, exp) ← s.set.expire now
    return { s with
      set := set
      active := s.active.filter (now < ·.timeout)
      previous := some now
      due := s.active.filter (·.timeout ≤ now)
      returned := exp }

/-- One call. -/
def step (s : Session) (c : Call) : Option Session :=
  if s.fault.isSome || !s.allowed c then none
  else
    match s.perform c with
    | .ok t => some t
    | .error e => some { s with fault := some e }

/-- The calls, with `clear`. -/
inductive SetCall where
  | call (c : Call)
  | clear
  deriving DecidableEq, Repr

/-- One call, which may be a `clear`. -/
def stepOrClear (s : Session) : SetCall → Option Session
  | .call c => s.step c
  | .clear =>
    if s.fault.isSome then none
    else
      match s.set.clear with
      | .ok set => some { s with set := set, active := [] }
      | .error e => some { s with fault := some e }

end Session

end TimerSet

end Netstar.Spec.Core
