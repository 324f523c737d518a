import Netstar.Spec.Net.Packet

/-!
# `Netstar.Spec.Net.PacketStore`: programs over packets

A program builds packets, changes them, joins them and shares them. The state is the list of all
packets that it has built, without the ones that were moved away. `step` runs one operation with the
functions of `net/packet.hh`, and `byteStep` runs the same operation on plain lists of bytes.
-/

set_option autoImplicit false

namespace Netstar.Spec.Net

/-- An operation of a program. The indices name packets. -/
inductive PacketOp where
  | empty
  | withFrags (nrFrags : Nat)
  | ofCopy (bytes : List UInt8)
  | ofFrags (frags : List (List UInt8))
  | appendFrag (i : Nat) (bytes : List UInt8)
  | prependCopy (i : Nat) (bytes : List UInt8)
  | prependHeader (i : Nat) (bytes : List UInt8)
  /-- The packet `j` is moved into the packet `i`. -/
  | append (i j : Nat)
  | trimFront (i howMuch : Nat)
  | trimBack (i howMuch : Nat)
  | share (i offset len : Nat)
  | linearize (i : Nat)
  | getHeader (i offset size : Nat)
  | reserve (i nFrags : Nat)
  | release (i : Nat)
  deriving DecidableEq, Repr

/-- What an operation returns besides packets. -/
inductive PacketOutput where
  | none
  /-- The bytes from the pointer to the end of its fragment. -/
  | header (mem : Option (List UInt8))
  | buffers (bufs : List (List UInt8))
  deriving DecidableEq, Repr

/-- A packet, and whether `trim_back` has cut its internal data. -/
structure PacketSlot where
  impl : PacketImpl
  trimmed : Bool
  deriving DecidableEq, Repr

/-- The packets of a program. -/
abbrev PacketStore := List (Option PacketSlot)

/-- Plain lists of bytes in the place of packets. -/
abbrev ByteStore := List (Option (List UInt8))

namespace PacketStore

/-- The packet in a slot. A moved-from slot has none. -/
def slot (s : PacketStore) (i : Nat) : Except PacketError PacketSlot :=
  match s[i]? with
  | some (some x) => .ok x
  | _ => .error .noPacket

/-- A new packet. -/
def build (s : PacketStore) (p : Except PacketError PacketImpl) :
    Except PacketError (PacketStore × PacketOutput) := do
  let p ← p
  return (s ++ [some ⟨p, false⟩], .none)

/-- An operation on one packet. -/
def update (s : PacketStore) (i : Nat) (f : PacketImpl → Except PacketError PacketImpl) :
    Except PacketError (PacketStore × PacketOutput) := do
  let x ← s.slot i
  let p ← f x.impl
  return (s.set i (some { x with impl := p }), .none)

/-- One operation of the program. -/
def step (s : PacketStore) : PacketOp → Except PacketError (PacketStore × PacketOutput)
  | .empty => s.build PacketImpl.empty
  | .withFrags nrFrags => s.build (PacketImpl.withFrags nrFrags)
  | .ofCopy bytes => s.build (.ok (.ofCopy bytes))
  | .ofFrags frags => s.build (PacketImpl.ofFrags frags)
  | .appendFrag i bytes => s.update i (·.appendFrag bytes)
  | .prependCopy i bytes => s.update i (PacketImpl.prependCopy bytes)
  | .prependHeader i bytes => s.update i (·.prependUninitializedHeader bytes)
  | .append i j => do
    let x ← s.slot i
    let y ← s.slot j
    let p ← x.impl.append y.impl
    -- an empty packet is replaced by the one that is appended
    let trimmed := if x.impl.len = 0 then y.trimmed else x.trimmed
    return ((s.set i (some ⟨p, trimmed⟩)).set j none, .none)
  | .trimFront i howMuch => s.update i (·.trimFront howMuch)
  | .trimBack i howMuch => do
    let x ← s.slot i
    let p ← x.impl.trimBack howMuch
    -- `trim_back` touches `_headroom` only when it cuts internal data
    let trimmed := x.trimmed || p.headroom != x.impl.headroom
    return (s.set i (some ⟨p, trimmed⟩), .none)
  | .share i offset len => do
    let x ← s.slot i
    let (p, n) ← x.impl.share offset len
    return (s.set i (some { x with impl := p }) ++ [some ⟨n, false⟩], .none)
  | .linearize i => s.update i (·.linearize)
  | .getHeader i offset size => do
    let x ← s.slot i
    let (p, mem) ← x.impl.getHeader offset size
    return (s.set i (some { x with impl := p }), .header mem)
  | .reserve i nFrags => s.update i (·.reserve nFrags)
  | .release i => do
    let x ← s.slot i
    return (s, .buffers x.impl.release)

/-- The packets after an operation that does not stop the program. -/
def next (s : PacketStore) (op : PacketOp) : Option PacketStore := (s.step op).toOption.map (·.1)

end PacketStore

namespace ByteStore

/-- The bytes in a slot. A slot without any has none. -/
def bytes (b : ByteStore) (i : Nat) : List UInt8 := (b[i]?.getD none).getD []

/-- The same operation on lists of bytes. -/
def byteStep (b : ByteStore) : PacketOp → ByteStore
  | .empty | .withFrags _ => b ++ [some []]
  | .ofCopy bytes => b ++ [some bytes]
  | .ofFrags frags => b ++ [some frags.flatten]
  | .appendFrag i bytes => b.set i (some (b.bytes i ++ bytes))
  | .prependCopy i bytes | .prependHeader i bytes => b.set i (some (bytes ++ b.bytes i))
  | .append i j => (b.set i (some (b.bytes i ++ b.bytes j))).set j none
  | .trimFront i howMuch => b.set i (some ((b.bytes i).drop howMuch))
  | .trimBack i howMuch => b.set i (some ((b.bytes i).take ((b.bytes i).length - howMuch)))
  | .share i offset len => b ++ [some (((b.bytes i).drop offset).take len)]
  | .linearize _ | .getHeader _ _ _ | .reserve _ _ | .release _ => b

end ByteStore

end Netstar.Spec.Net
