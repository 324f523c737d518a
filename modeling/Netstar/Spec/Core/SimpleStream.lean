import Netstar.Lib.Run

/-!
# `Netstar.Spec.Core.SimpleStream`: `memory_input_stream` of `core/simple-stream.hh`

A `memory_input_stream` reads a message that is in one buffer (`simple`) or in several fragments
(`fragmented`). A pointer and a size are the bytes that they cover, and an iterator is the list of
the fragments from there on. A loop that goes past the last fragment is undefined.

`TwinStreams` runs the same operations on a message in one buffer and on the same message in
fragments. An operation names the stream it is for, because `read_substream` makes a new one.
-/

set_option autoImplicit false

namespace Netstar.Spec.Core

/-- Why an operation has no result. -/
inductive UnderflowFault where
  /-- `std::out_of_range`. -/
  | outOfRange
  /-- An access past the last fragment. -/
  | pastEnd
  deriving DecidableEq, Repr

/-- `memory_input_stream::fragmented`. -/
structure FragmentedStream where
  it : List (List UInt8)
  current : List UInt8
  size : Nat
  deriving DecidableEq, Repr

namespace FragmentedStream

/-- The loop of `for_each_fragment`, with the views that it passes to `func`. -/
def fragmentLoop (it : List (List UInt8)) (current : List UInt8) (size : Nat) :
    Except UnderflowFault (List (List UInt8) × List UInt8 × List (List UInt8)) :=
  if size = 0 then .ok (it, current, [])
  else if _h : current = [] then
    -- the current fragment is used up
    match it with
    | [] => .error .pastEnd
    | fragment :: it => do
      let thisSize := min fragment.length size
      let (it', current', views) ← fragmentLoop it (fragment.drop thisSize) (size - thisSize)
      return (it', current', fragment.take thisSize :: views)
  else do
    let thisSize := min current.length size
    let (it', current', views) ← fragmentLoop it (current.drop thisSize) (size - thisSize)
    return (it', current', current.take thisSize :: views)
termination_by (it.length, current.length)
decreasing_by
  · exact Prod.Lex.left _ _ (by simp)
  · refine Prod.Lex.right _ ?_
    have hpos := List.length_pos_iff.mpr _h
    simp only [List.length_drop]
    omega

/-- `for_each_fragment`. -/
def forEachFragment (s : FragmentedStream) (size : Nat) :
    Except UnderflowFault (FragmentedStream × List (List UInt8)) :=
  if s.size < size then .error .outOfRange
  else do
    let (it, current, views) ← fragmentLoop s.it s.current size
    return (⟨it, current, s.size - size⟩, views)

/-- `skip`. -/
def skip (s : FragmentedStream) (size : Nat) : Except UnderflowFault FragmentedStream := do
  let (s, _) ← s.forEachFragment size
  return s

/-- `read_substream`. -/
def readSubstream (s : FragmentedStream) (size : Nat) :
    Except UnderflowFault (FragmentedStream × FragmentedStream) :=
  if s.size < size then .error .outOfRange
  else do
    let substream : FragmentedStream := ⟨s.it, s.current, size⟩
    let s ← s.skip size
    return (s, substream)

/-- `read`. -/
def read (s : FragmentedStream) (size : Nat) :
    Except UnderflowFault (FragmentedStream × List UInt8) := do
  let (s, views) ← s.forEachFragment size
  return (s, views.flatten)

/-- `copy_to`, with the bytes that it writes to `out`. -/
def copyTo (s : FragmentedStream) : Except UnderflowFault (FragmentedStream × List UInt8) := do
  let (s, views) ← s.forEachFragment s.size
  return (s, views.flatten)

end FragmentedStream

/-- `memory_input_stream::simple`: the bytes from `_p` on. -/
abbrev SimpleStream := List UInt8

namespace SimpleStream

/-- `skip`. -/
def skip (s : SimpleStream) (size : Nat) : Except UnderflowFault SimpleStream :=
  if s.length < size then .error .outOfRange else .ok (s.drop size)

/-- `read_substream`. -/
def readSubstream (s : SimpleStream) (size : Nat) :
    Except UnderflowFault (SimpleStream × SimpleStream) := do
  if s.length < size then throw .outOfRange
  let substream : SimpleStream := s.take size
  let s ← skip s size
  return (s, substream)

/-- `read`. -/
def read (s : SimpleStream) (size : Nat) : Except UnderflowFault (SimpleStream × List UInt8) := do
  if s.length < size then throw .outOfRange
  let bytes := s.take size
  let s ← skip s size
  return (s, bytes)

/-- `copy_to`. It is `const`. -/
def copyTo (s : SimpleStream) : List UInt8 := s

end SimpleStream

/-- `memory_input_stream`. -/
inductive MemoryInputStream where
  | simple (s : SimpleStream)
  | fragmented (s : FragmentedStream)
  deriving DecidableEq, Repr

/-- The operations. `copy` is the copy constructor. -/
inductive MemoryStreamOp where
  | skip (size : Nat)
  | readSubstream (size : Nat)
  | read (size : Nat)
  | copyTo
  | size
  | copy
  deriving DecidableEq, Repr

/-- What the caller of an operation sees: bytes that are read or written to `out`, or a size. -/
inductive MemoryStreamResult where
  | done
  | bytes (bytes : List UInt8)
  | size (size : Nat)
  deriving DecidableEq, Repr

/-- A stream after an operation, a stream that the operation makes, and the result. -/
structure MemoryStreamEffect where
  stream : MemoryInputStream
  created : Option MemoryInputStream
  result : MemoryStreamResult
  deriving DecidableEq, Repr

namespace MemoryInputStream

/-- An operation, through `with_stream`. -/
def apply : MemoryInputStream → MemoryStreamOp → Except UnderflowFault MemoryStreamEffect
  | .simple s, .skip size => do
    let s ← SimpleStream.skip s size
    return ⟨.simple s, none, .done⟩
  | .fragmented s, .skip size => do
    let s ← s.skip size
    return ⟨.fragmented s, none, .done⟩
  | .simple s, .readSubstream size => do
    let (s, substream) ← SimpleStream.readSubstream s size
    return ⟨.simple s, some (.simple substream), .done⟩
  | .fragmented s, .readSubstream size => do
    let (s, substream) ← s.readSubstream size
    return ⟨.fragmented s, some (.fragmented substream), .done⟩
  | .simple s, .read size => do
    let (s, bytes) ← SimpleStream.read s size
    return ⟨.simple s, none, .bytes bytes⟩
  | .fragmented s, .read size => do
    let (s, bytes) ← s.read size
    return ⟨.fragmented s, none, .bytes bytes⟩
  | .simple s, .copyTo => return ⟨.simple s, none, .bytes (SimpleStream.copyTo s)⟩
  | .fragmented s, .copyTo => do
    let (s, bytes) ← s.copyTo
    return ⟨.fragmented s, none, .bytes bytes⟩
  | .simple s, .size => return ⟨.simple s, none, .size s.length⟩
  | .fragmented s, .size => return ⟨.fragmented s, none, .size s.size⟩
  | s, .copy => return ⟨s, some s, .done⟩

/-- The bytes that are left. -/
def remaining : MemoryInputStream → List UInt8
  | .simple s => s
  | .fragmented s => (s.current ++ s.it.flatten).take s.size

end MemoryInputStream

/-- An operation on a stream of a table, and its result. An operation that throws leaves the streams
as they are. -/
def tableApply (table : List MemoryInputStream) (i : Nat) (op : MemoryStreamOp) :
    Option (List MemoryInputStream × Except UnderflowFault MemoryStreamResult) :=
  table[i]?.map fun s =>
    match s.apply op with
    | .ok e => (table.set i e.stream ++ e.created.toList, .ok e.result)
    | .error fault => (table, .error fault)

/-- A message in fragments, which may reach beyond its end. -/
structure CutMessage where
  fragments : List (List UInt8)
  size : Nat
  size_le : size ≤ fragments.flatten.length

/-- The streams that stem from a message in one buffer, and those from the message in fragments. The
last operation has its two results and, if it was a `copy_to`, the bytes that were left in the
stream. -/
structure TwinStreams where
  whole : List MemoryInputStream
  cut : List MemoryInputStream
  wholeResult : Except UnderflowFault MemoryStreamResult
  cutResult : Except UnderflowFault MemoryStreamResult
  copied : Option (List UInt8)

namespace TwinStreams

/-- The streams of a message. -/
def create (m : CutMessage) : TwinStreams where
  whole := [.simple (m.fragments.flatten.take m.size)]
  cut := [.fragmented ⟨m.fragments, [], m.size⟩]
  wholeResult := .ok .done
  cutResult := .ok .done
  copied := none

/-- The operation on both sides. -/
def step (t : TwinStreams) (c : Nat × MemoryStreamOp) : Option TwinStreams := do
  let (whole, wholeResult) ← tableApply t.whole c.1 c.2
  let (cut, cutResult) ← tableApply t.cut c.1 c.2
  let copied := if c.2 = .copyTo then t.whole[c.1]?.map (·.remaining) else none
  return ⟨whole, cut, wholeResult, cutResult, copied⟩

end TwinStreams

end Netstar.Spec.Core
