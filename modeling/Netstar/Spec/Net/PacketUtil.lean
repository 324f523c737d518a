import Netstar.Lib.Segments

/-!
# `Netstar.Spec.Net.PacketUtil`: `packet_merger` of `net/packet-util.hh`

`packet_merger<Offset, Tag>` keeps the fragments received so far in a
`std::map<Offset, packet>` and merges a new fragment into it. The class is a template over
the offset type. The IP reassembly uses integers, and TCP uses the wrapping `tcp_seq`. The
model keeps the template parameter: `MergeOffset` collects the operators that `merge` uses.

A packet is its content, a list of bytes. `linearize` changes the fragment layout only, so it
is the identity here, and the linearization counter is a statistic that `merge` never reads.
The map is the list of its entries in iteration order, and `mapEmplace` is `std::map::emplace`
on that list.

`merge` can stop the program in two ways: `packet::trim_front` asserts that it does not trim
more than the packet holds, and the second loop calls `abort()` in its last branch. Both are
`MergeError`s.
-/

set_option autoImplicit false

namespace Netstar.Spec.Net

/-- The content of a `net::packet`. -/
abbrev Packet := List UInt8

/-- The two ways in which `merge` stops the program. -/
inductive MergeError where
  /-- `assert(how_much <= _impl->_len)` of `packet::trim_front`. -/
  | trimAssert
  /-- `abort()` at the end of the second loop of `merge`. -/
  | abort
  deriving DecidableEq, Repr

/-- `packet::trim_front`. The parameter is a `size_t`. A negative difference of two offsets
converts to a value above every packet length, so it fails the assertion like an excess. -/
def trimFront (p : Packet) (howMuch : Int) : Except MergeError Packet :=
  if 0 ≤ howMuch ∧ howMuch ≤ p.length then .ok (p.drop howMuch.toNat) else .error .trimAssert

/-- The operators of the template parameter `Offset`: `a < b`, `a + p.len()` and `a - b`. -/
class MergeOffset (α : Type) where
  lt : α → α → Bool
  advance : α → Nat → α
  distance : α → α → Int

/-- `a <= b`. For integers and for `tcp_seq` this is `!(b < a)`. -/
def MergeOffset.le {α : Type} [MergeOffset α] (a b : α) : Bool := !lt b a

/-- `packet_merger` over integer offsets. -/
instance : MergeOffset Int where
  lt a b := decide (a < b)
  advance a n := a + n
  distance a b := a - b

/-- The entries of `packet_merger::map`, in iteration order. -/
abbrev SegMap (α : Type) := List (α × Packet)

variable {α : Type} [MergeOffset α]

open MergeOffset (lt le advance distance)

/-- `std::map::emplace`: an entry whose key is equivalent to `beg` stays as it is. -/
def mapEmplace (beg : α) (p : Packet) : SegMap α → SegMap α
  | [] => [(beg, p)]
  | (k, q) :: rest =>
    if lt beg k then (beg, p) :: (k, q) :: rest
    else if lt k beg then (k, q) :: mapEmplace beg p rest
    else (k, q) :: rest

/-- How the first loop of `merge` ends. -/
inductive FirstLoop (α : Type) where
  /-- Case 1: the packet holds nothing new, and `merge` returns. -/
  | covered
  /-- The loop ends with `insert == true`, the given map, and the given packet to insert. -/
  | insert (map : SegMap α) (p : Packet)
  /-- Case 4: the packet was appended to a segment of the map, and `insert == false`. -/
  | extended (map : SegMap α)
  deriving DecidableEq, Repr

/-- The entry that the loop has passed stays in the map. -/
def FirstLoop.keep (e : α × Packet) : FirstLoop α → FirstLoop α
  | .covered => .covered
  | .insert map p => .insert (e :: map) p
  | .extended map => .extended (e :: map)

/-- The first loop of `merge`: the six cases, in the order of the source. -/
def firstLoop (beg : α) (p : Packet) : SegMap α → Except MergeError (FirstLoop α)
  | [] => .ok (.insert [] p)
  | (segBeg, segPkt) :: rest =>
    let stop := advance beg p.length
    let segEnd := advance segBeg segPkt.length
    if le segBeg beg && le stop segEnd then
      -- the new segment lies inside an old one
      .ok .covered
    else if le beg segBeg && le segEnd stop then
      -- the new segment covers an old one, which is erased
      .ok (.insert rest p)
    else if lt beg segBeg && le segBeg stop && le stop segEnd then do
      -- They overlap or touch, with the new segment in front.
      let tail ← trimFront segPkt (distance stop segBeg)
      return .insert rest (p ++ tail)
    else if le segBeg beg && le beg segEnd && lt segEnd stop then do
      -- They overlap or touch, with the old segment in front, which is extended in its place.
      let tail ← trimFront p (distance segEnd beg)
      return .extended ((segBeg, segPkt ++ tail) :: rest)
    else
      (firstLoop beg p rest).map (FirstLoop.keep (segBeg, segPkt))

/-- The second loop of `merge`. The first argument is the segment at `it`, and the list
holds the entries after it. -/
def secondLoop (seg : α × Packet) : SegMap α → Except MergeError (SegMap α)
  | [] => .ok [seg]
  | (beg, p) :: rest =>
    let segEnd := advance seg.1 seg.2.length
    let stop := advance beg p.length
    if le seg.1 beg && le beg segEnd && lt segEnd stop then do
      -- the next entry continues this one
      let tail ← trimFront p (distance segEnd beg)
      secondLoop (seg.1, seg.2 ++ tail) rest
    else if le stop segEnd then
      -- the next entry lies inside this one and is erased
      secondLoop seg rest
    else if lt segEnd beg then
      -- a gap: the walk goes on at the next entry
      (secondLoop (beg, p) rest).map (seg :: ·)
    else
      .error .abort

/-- The second loop from `map.begin()`. -/
def mergeAdjacent : SegMap α → Except MergeError (SegMap α)
  | [] => .ok []
  | seg :: rest => secondLoop seg rest

/-- `packet_merger::merge`. -/
def merge (map : SegMap α) (offset : α) (p : Packet) : Except MergeError (SegMap α) := do
  match ← firstLoop offset p map with
  | .covered => return map
  | .insert map p => mergeAdjacent (mapEmplace offset p map)
  | .extended map => mergeAdjacent map

/-- A sequence of `merge` calls on an empty `packet_merger`. -/
def mergeAll (calls : List (α × Packet)) : Except MergeError (SegMap α) :=
  calls.foldlM (fun map c => merge map c.1 c.2) []

/-! ### The cases of a call -/

/-- The cases of the first loop of `merge`, under the numbers that the source gives them.
Cases 5 and 6 share a branch. -/
inductive FirstCase where
  | covered
  | covers
  | frontOverlap
  | backOverlap
  | apart
  deriving DecidableEq, Repr

/-- The branch that the first loop takes at a segment. -/
def firstCase (beg stop segBeg segEnd : α) : FirstCase :=
  if le segBeg beg && le stop segEnd then .covered
  else if le beg segBeg && le segEnd stop then .covers
  else if lt beg segBeg && le segBeg stop && le stop segEnd then .frontOverlap
  else if le segBeg beg && le beg segEnd && lt segEnd stop then .backOverlap
  else .apart

/-- The branches of the second loop of `merge`. -/
inductive SecondCase where
  | append
  | inside
  | apart
  | abort
  deriving DecidableEq, Repr

/-- The branch that the second loop takes at two neighbours. -/
def secondCase (segBeg segEnd beg stop : α) : SecondCase :=
  if le segBeg beg && le beg segEnd && lt segEnd stop then .append
  else if le stop segEnd then .inside
  else if lt segEnd beg then .apart
  else .abort

/-- The branches that the first loop takes, in order. -/
def firstCases (beg : α) (p : Packet) : SegMap α → List FirstCase
  | [] => []
  | (segBeg, segPkt) :: rest =>
    match firstCase beg (advance beg p.length) segBeg (advance segBeg segPkt.length) with
    | .apart => .apart :: firstCases beg p rest
    | c => [c]

/-- The branches that the second loop takes, in order. -/
def secondCases (seg : α × Packet) : SegMap α → List SecondCase
  | [] => []
  | (beg, p) :: rest =>
    let segEnd := advance seg.1 seg.2.length
    match secondCase seg.1 segEnd beg (advance beg p.length) with
    | .append =>
      match trimFront p (distance segEnd beg) with
      | .ok tail => .append :: secondCases (seg.1, seg.2 ++ tail) rest
      | .error _ => [.append]
    | .inside => .inside :: secondCases seg rest
    | .apart => .apart :: secondCases (beg, p) rest
    | .abort => [.abort]

/-- The branches of the second loop from `map.begin()`. -/
def adjacentCases : SegMap α → List SecondCase
  | [] => []
  | seg :: rest => secondCases seg rest

/-- The branches of both loops of a `merge` call. -/
def mergeCases (map : SegMap α) (offset : α) (p : Packet) : List FirstCase × List SecondCase :=
  (firstCases offset p map,
    match firstLoop offset p map with
    | .ok (.insert map p) => adjacentCases (mapEmplace offset p map)
    | .ok (.extended map) => adjacentCases map
    | _ => [])

end Netstar.Spec.Net
