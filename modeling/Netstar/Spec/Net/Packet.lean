import Mathlib.Algebra.Order.Ring.Int
import Mathlib.Data.List.Basic

/-!
# `Netstar.Spec.Net.Packet`: the fragment list of `net/packet.hh`

`packet::impl` holds an array of fragments. A fragment is a pointer and a size. The model gives each
fragment its own bytes. Of the pointer it keeps what the code compares: the offset into the internal
buffer `_data` of the same packet, or that it points elsewhere. Only the first fragment may use
`_data`, and `_headroom` is the space before it.

The list holds the first `_nr_frags` entries of the array, which has `_allocated_frags` entries. An
operation stops at a failed assertion, at a fragment index that is not below `_nr_frags`, and at a
write outside the array or outside `_data`. `_len` is an `unsigned`, so it counts modulo `2^32`.

The deleter, the offload information and the RSS hash play no part here. The zero-copy constructor
that prepends a fragment is declared in the source and never defined.
-/

set_option autoImplicit false

namespace Netstar.Spec.Net

/-- How an operation on a packet can go wrong. -/
inductive PacketError where
  /-- An `assert` fails. -/
  | assertion
  /-- A fragment index is not below `_nr_frags`. -/
  | fragIndex
  /-- A write outside the fragment array or outside `_data`. -/
  | outOfBounds
  /-- `std::copy` between ranges that overlap the wrong way. -/
  | overlap
  /-- The packet was moved away, or never built. -/
  | noPacket
  deriving DecidableEq, Repr

/-- `fragment`. -/
structure Fragment where
  /-- The offset into the `_data` of the packet, when the fragment lies there. -/
  base : Option Nat
  bytes : List UInt8
  deriving DecidableEq, Repr

namespace Fragment

/-- The size of a fragment. -/
def size (f : Fragment) : Nat := f.bytes.length

/-- A fragment outside the packet. -/
def elsewhere (bytes : List UInt8) : Fragment := ⟨none, bytes⟩

end Fragment

/-- `packet::impl`. -/
structure PacketImpl where
  len : Nat
  headroom : Nat
  allocatedFrags : Nat
  frags : List Fragment
  deriving DecidableEq, Repr

namespace PacketImpl

/-- `internal_data_size`. -/
def internalDataSize : Nat := 128 - 16

/-- `default_nr_frags`. -/
def defaultNrFrags : Nat := 4

/-- The conversion to `unsigned`. -/
def toUnsigned (n : Nat) : Nat := n % 2 ^ 32

/-- `_nr_frags`. -/
def nrFrags (p : PacketImpl) : Nat := p.frags.length

/-- `assert`. -/
def check (b : Bool) : Except PacketError Unit := if b then .ok () else .error .assertion

/-- A write at the given index of an array or buffer with `size` entries. -/
def inBounds (index size : Nat) : Except PacketError Unit :=
  if index < size then .ok () else .error .outOfBounds

/-- `impl::allocate`, with the assertion of `operator new`. -/
def allocate (nrFrags : Nat) : Except PacketError PacketImpl := do
  let nrFrags := max nrFrags defaultNrFrags
  check (nrFrags < 2 ^ 16)
  return ⟨0, internalDataSize, nrFrags, []⟩

/-- `using_internal_data`. -/
def usingInternalData (p : PacketImpl) : Bool :=
  match p.frags with
  | ⟨some off, _⟩ :: _ => decide (off < internalDataSize)
  | _ => false

/-- `unuse_internal_data`. -/
def unuseInternalData (p : PacketImpl) : PacketImpl :=
  match p.frags with
  | f :: frags =>
    if p.usingInternalData then
      { p with headroom := internalDataSize, frags := .elsewhere f.bytes :: frags }
    else p
  | [] => p

/-- `copy_internal_fragment_to`, on the copied fragments. The others point into the old packet or
elsewhere. -/
def copyInternalFragment (p : PacketImpl) : Except PacketError (List Fragment) :=
  let frags := p.frags.map fun f => Fragment.elsewhere f.bytes
  match frags with
  | f :: rest =>
    if p.usingInternalData then do
      inBounds (p.headroom + f.size) (internalDataSize + 1)
      return ⟨some p.headroom, f.bytes⟩ :: rest
    else .ok frags
  | [] => .ok frags

/-- `impl::copy`. -/
def copy (old : PacketImpl) (nr : Nat) : Except PacketError PacketImpl := do
  let n ← allocate nr
  inBounds old.nrFrags (n.allocatedFrags + 1)
  let frags ← old.copyInternalFragment
  return { old with allocatedFrags := n.allocatedFrags, frags := frags }

/-- `allocate_if_needed`. -/
def allocateIfNeeded (old : PacketImpl) (extraFrags : Nat) : Except PacketError PacketImpl :=
  if old.nrFrags + extraFrags ≤ old.allocatedFrags then .ok old
  else old.copy (max (old.nrFrags + extraFrags) (2 * old.nrFrags))

/-- `_frags[_nr_frags++] = frag`. -/
def pushFrag (p : PacketImpl) (f : Fragment) : Except PacketError PacketImpl := do
  inBounds p.nrFrags p.allocatedFrags
  return { p with frags := p.frags ++ [f] }

/-- `copy_backward` by one entry, `_frags[0] = frag` and `++_nr_frags`. -/
def unshiftFrag (p : PacketImpl) (f : Fragment) : Except PacketError PacketImpl := do
  inBounds p.nrFrags p.allocatedFrags
  return { p with frags := f :: p.frags }

/-! ### Constructors -/

/-- `packet()`. -/
def empty : Except PacketError PacketImpl := allocate 1

/-- `packet(size_t)`. -/
def withFrags (nrFrags : Nat) : Except PacketError PacketImpl := allocate nrFrags

/-- `packet(fragment)` and `packet(const char*, size_t)`, which copy the bytes. -/
def ofCopy (bytes : List UInt8) : PacketImpl :=
  if bytes.length ≤ internalDataSize then
    let headroom := internalDataSize - bytes.length
    ⟨toUnsigned bytes.length, headroom, defaultNrFrags, [⟨some headroom, bytes⟩]⟩
  else
    ⟨toUnsigned bytes.length, internalDataSize, defaultNrFrags, [.elsewhere bytes]⟩

/-- The zero-copy constructors from fragments. -/
def ofFrags (frags : List (List UInt8)) : Except PacketError PacketImpl := do
  let p ← allocate frags.length
  let len := frags.foldl (fun len bytes => toUnsigned (len + bytes.length)) 0
  return { p with len := len, frags := frags.map .elsewhere }

/-- `packet(packet&&, fragment)` and `packet(packet&&, fragment, deleter)`. The first one copies the
bytes, and the second one takes them. -/
def appendFrag (x : PacketImpl) (bytes : List UInt8) : Except PacketError PacketImpl := do
  let p ← x.allocateIfNeeded 1
  pushFrag { p with len := toUnsigned (p.len + bytes.length) } (.elsewhere bytes)

/-- The last part of `allocate_headroom`: the first fragment grows downwards over the given bytes. -/
def growFront (p : PacketImpl) (bytes : List UInt8) : Except PacketError PacketImpl :=
  match p.frags with
  | ⟨some off, old⟩ :: frags =>
    if bytes.length ≤ off then
      .ok { p with
        headroom := p.headroom - bytes.length
        frags := ⟨some (off - bytes.length), bytes ++ old⟩ :: frags }
    else .error .outOfBounds
  | _ => .error .outOfBounds

/-- `allocate_headroom`, when it succeeds, and the bytes that the caller writes there. -/
def fillHeadroom (p : PacketImpl) (bytes : List UInt8) : Except PacketError PacketImpl := do
  let p := { p with len := toUnsigned (p.len + bytes.length) }
  if p.usingInternalData then p.growFront bytes
  else
    let p ← p.allocateIfNeeded 1
    let p ← p.unshiftFrag ⟨some internalDataSize, []⟩
    p.growFront bytes

/-- A new fragment before the others. -/
def prependFrag (p : PacketImpl) (bytes : List UInt8) : Except PacketError PacketImpl := do
  let p ← p.allocateIfNeeded 1
  unshiftFrag { p with len := toUnsigned (p.len + bytes.length) } (.elsewhere bytes)

/-- `packet(fragment, packet&&)`. -/
def prependCopy (bytes : List UInt8) (x : PacketImpl) : Except PacketError PacketImpl :=
  if bytes.length ≤ x.headroom then x.fillHeadroom bytes
  else x.unuseInternalData.prependFrag bytes

/-- `prepend_uninitialized_header`, and the bytes that the caller writes there. -/
def prependUninitializedHeader (x : PacketImpl) (bytes : List UInt8) :
    Except PacketError PacketImpl :=
  if bytes.length ≤ x.headroom then x.fillHeadroom bytes
  else
    let x := x.unuseInternalData
    if bytes.length ≤ x.headroom then x.fillHeadroom bytes else x.prependFrag bytes

/-- `append`. -/
def append (x p : PacketImpl) : Except PacketError PacketImpl := do
  if x.len = 0 then return p
  let x ← x.allocateIfNeeded p.nrFrags
  let p := p.unuseInternalData
  inBounds (x.nrFrags + p.nrFrags) (x.allocatedFrags + 1)
  return { x with
    len := toUnsigned (x.len + p.len)
    frags := x.frags ++ p.frags.map fun f => .elsewhere f.bytes }

/-! ### Trimming -/

/-- The loop of `trim_front`: what is left to trim, and the fragments from index `i` on. -/
def skipFrags : Nat → List Fragment → Except PacketError (Nat × List Fragment)
  | 0, frags => .ok (0, frags)
  | _ + 1, [] => .error .fragIndex
  | howMuch + 1, f :: frags =>
    if f.size ≤ howMuch + 1 then skipFrags (howMuch + 1 - f.size) frags
    else .ok (howMuch + 1, f :: frags)

/-- `_frags[0].base += how_much` and `_frags[0].size -= how_much`. -/
def cutFront (p : PacketImpl) (howMuch : Nat) : Except PacketError PacketImpl :=
  match p.frags with
  | [] => .error .fragIndex
  | f :: frags =>
    .ok { p with
      headroom := if p.usingInternalData then p.headroom + howMuch else p.headroom
      frags := ⟨f.base.map (· + howMuch), f.bytes.drop howMuch⟩ :: frags }

/-- `trim_front`. -/
def trimFront (p : PacketImpl) (howMuch : Nat) : Except PacketError PacketImpl := do
  check (howMuch ≤ p.len)
  let (left, frags) ← skipFrags howMuch p.frags
  let p := { p with len := p.len - howMuch, frags := frags }
  let p := if p.usingInternalData then p else { p with headroom := internalDataSize }
  if left = 0 then return p else p.cutFront left

/-- `_frags[i].size -= how_much` for the last fragment, and the adjustment of `_headroom`. -/
def cutBack (p : PacketImpl) (howMuch : Nat) : List Fragment → Except PacketError PacketImpl
  | [] => .error .fragIndex
  | [f] =>
    let p' := { p with frags := [⟨f.base, f.bytes.take (f.size - howMuch)⟩] }
    .ok (if p'.usingInternalData then { p' with headroom := p.headroom + howMuch } else p')
  | f :: rest => .ok { p with
      frags := rest.reverse ++ [⟨f.base, f.bytes.take (f.size - howMuch)⟩] }

/-- `trim_back`. Its loop runs from the last fragment down. -/
def trimBack (p : PacketImpl) (howMuch : Nat) : Except PacketError PacketImpl := do
  check (howMuch ≤ p.len)
  let (left, back) ← skipFrags howMuch p.frags.reverse
  let p := { p with len := p.len - howMuch, frags := back.reverse }
  if left = 0 then return p else p.cutBack left back

/-! ### Sharing and linearizing -/

/-- The second loop of `share`. The first argument is the offset into the first fragment. -/
def shareFrags (len : Nat) : Nat → List Fragment → PacketImpl → Except PacketError PacketImpl
  | _, [], n => if n.len < len then .error .fragIndex else .ok n
  | offset, f :: frags, n =>
    if n.len < len then do
      let fsize := min (len - n.len) (f.size - offset)
      let n ← n.pushFrag (.elsewhere ((f.bytes.drop offset).take fsize))
      shareFrags len 0 frags { n with len := toUnsigned (n.len + fsize) }
    else .ok n

/-- `share(offset, len)`: the packet itself, and the new packet. -/
def share (p : PacketImpl) (offset len : Nat) : Except PacketError (PacketImpl × PacketImpl) := do
  let p := p.unuseInternalData
  let n ← empty
  let n ← n.allocateIfNeeded p.nrFrags
  let (offset, frags) ← skipFrags offset p.frags
  let n ← shareFrags len offset frags n
  return (p, n)

/-- The first loop of `linearize`: the fragments that it collects, and the others after them. -/
def collectFrags (desiredSize : Nat) :
    Nat → List Fragment → Except PacketError (List Fragment × List Fragment)
  | accumSize, frags =>
    if accumSize < desiredSize then
      match frags with
      | [] => .error .fragIndex
      | f :: frags => do
        let (collected, rest) ← collectFrags desiredSize (accumSize + f.size) frags
        return (f :: collected, rest)
    else .ok ([], frags)

/-- `linearize(at_frag, desired_size)`. With no fragment collected, the code moves the others up by
one entry with a forward `std::copy`, and two of them are enough for an overlap. -/
def linearizeAt (p : PacketImpl) (atFrag desiredSize : Nat) : Except PacketError PacketImpl := do
  let p := p.unuseInternalData
  let (collected, rest) ← collectFrags desiredSize 0 (p.frags.drop atFrag)
  if collected.isEmpty && decide (2 ≤ rest.length) then .error .overlap
  inBounds (atFrag + rest.length) p.allocatedFrags
  return { p with
    frags := p.frags.take atFrag ++
      .elsewhere (collected.flatMap (·.bytes)) :: rest }

/-- `linearize()`. -/
def linearize (p : PacketImpl) : Except PacketError PacketImpl := p.linearizeAt 0 p.len

/-- The loop of `get_header`: the index of the fragment, the fragment, and the offset into it. -/
def findFrag : Nat → Nat → List Fragment → Option (Nat × Fragment × Nat)
  | _, _, [] => none
  | i, offset, f :: frags =>
    if f.size ≤ offset then findFrag (i + 1) (offset - f.size) frags else some (i, f, offset)

/-- `get_header(offset, size)`. The result is the packet, and the bytes from the pointer to the end
of its fragment. -/
def getHeader (p : PacketImpl) (offset size : Nat) :
    Except PacketError (PacketImpl × Option (List UInt8)) := do
  if p.len < offset + size then return (p, none)
  match findFrag 0 offset p.frags with
  | none => return (p, none)
  | some (i, f, offset) =>
    let p ← if f.size < offset + size then p.linearizeAt i (offset + size) else .ok p
    match p.frags[i]? with
    | none => .error .fragIndex
    | some f => return (p, some (f.bytes.drop offset))

/-- `reserve`. -/
def reserve (p : PacketImpl) (nFrags : Nat) : Except PacketError PacketImpl :=
  if p.nrFrags < nFrags then p.allocateIfNeeded (nFrags - p.nrFrags) else .ok p

/-- `release`: the contents of the buffers. -/
def release (p : PacketImpl) : List (List UInt8) := p.frags.map (·.bytes)

end PacketImpl

end Netstar.Spec.Net
