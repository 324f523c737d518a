import Netstar.Lib.LittleEndian
import Netstar.Spec.Net.Tcp

/-!
# `Netstar.Spec.Net.Forward`: the key that chooses a CPU

A received packet goes to the CPU that a hash of its addresses and ports selects. `forward_hash`
collects the bytes of the key, and `toeplitz_hash` hashes them. `l4connid::hash` builds the key of a
connection, and the `forward` functions of the protocols build the key of a packet.

The host is little-endian, so `ntoh` and `hton` reverse the bytes of a number. A number in a packed
header is loaded in host order, and `push_back` stores a number with its lowest byte first. The key
has at most 12 bytes, so the assertion of `push_back` about the 64 bytes of its buffer holds.
-/

set_option autoImplicit false

namespace Netstar.Spec.Net

open Netstar.Lib.LittleEndian (encode decode)

/-- `packet::get_header(offset, size)` for a size that is not zero. The result is the header. -/
def Packet.getHeader (p : Packet) (offset size : Nat) : Option (List UInt8) :=
  if offset + size ≤ p.length then some ((p.drop offset).take size) else none

/-- A load of `n` bytes of a packed header. -/
def loadPacked (n : Nat) (p : List UInt8) (i : Nat) : Nat := decode ((p.drop i).take n)

/-- `ntoh` and `hton` on a number of `n` bytes. -/
def hton (n v : Nat) : Nat := decode (encode n v).reverse

/-- `forward_hash`. -/
abbrev ForwardHash := List UInt8

namespace ForwardHash

/-- `push_back` of a number of `n` bytes. -/
def pushBack (n : Nat) (h : ForwardHash) (v : Nat) : ForwardHash := h ++ encode n v

end ForwardHash

/-- One round of the inner loop of `toeplitz_hash`, with the index of the byte and of its bit. -/
def toeplitzBit (key : List UInt8) (i : Nat) (byte : UInt8) (st : BitVec 32 × BitVec 32) (b : Nat) :
    BitVec 32 × BitVec 32 :=
  let (hash, v) := st
  let hash := if byte.toNat.testBit (7 - b) then hash ^^^ v else hash
  let v := v <<< 1
  (hash, if (key.getD (i + 4) 0).toNat.testBit (7 - b) then v ||| 1 else v)

/-- `toeplitz_hash`. -/
def toeplitzHash (key : List UInt8) (data : ForwardHash) : BitVec 32 :=
  (data.zipIdx.foldl (fun st x => (List.range 8).foldl (toeplitzBit key x.2 x.1) st)
    (0, readBe32 key 0)).1

/-- `l4connid`. -/
structure L4ConnId where
  localIp : Nat
  foreignIp : Nat
  localPort : Nat
  foreignPort : Nat
  deriving DecidableEq, Repr

namespace L4ConnId

/-- The key that `l4connid::hash` builds. -/
def hashData (id : L4ConnId) : ForwardHash :=
  let h : ForwardHash := []
  let h := h.pushBack 4 (hton 4 id.foreignIp)
  let h := h.pushBack 4 (hton 4 id.localIp)
  let h := h.pushBack 2 (hton 2 id.foreignPort)
  h.pushBack 2 (hton 2 id.localPort)

/-- `l4connid::hash`. -/
def hash (id : L4ConnId) (rssKey : List UInt8) : BitVec 32 := toeplitzHash rssKey id.hashData

end L4ConnId

/-- The protocols in the table `_l4` of `ipv4`. -/
inductive L4 where
  | tcp
  | icmp
  | udp
  deriving DecidableEq, Repr

namespace L4

/-- `_l4[ip_proto]`. -/
def ofProto (ipProto : Nat) : Option L4 :=
  if ipProto = 6 then some .tcp
  else if ipProto = 1 then some .icmp
  else if ipProto = 17 then some .udp
  else none

/-- `tcp_hdr::len` and `sizeof(udp_hdr)`. -/
def hdrLen : L4 → Nat
  | .tcp => TcpHdr.len
  | .icmp => 0
  | .udp => 8

/-- `tcp::forward`, `ipv4_udp::forward`, and the default of `ip_protocol::forward`. -/
def forward (l4 : L4) (h : ForwardHash) (p : Packet) (off : Nat) : ForwardHash × Bool :=
  match l4 with
  | .tcp =>
    match p.getHeader off TcpHdr.len with
    | some th => (h ++ th.take 4, true)
    | none => (h, true)
  | .udp =>
    match p.getHeader off 8 with
    | some uh => ((h.pushBack 2 (loadPacked 2 uh 0)).pushBack 2 (loadPacked 2 uh 2), true)
    | none => (h, true)
  | .icmp => (h, true)

/-- The connection id that `received` computes from a packet without its IP header. `tcp::received`
looks it up in `_tcbs`. UDP uses its local port only. There is no id when the header is missing or
wrong. -/
def connId (l4 : L4) (p : Packet) (src dst : Nat) : Option L4ConnId :=
  match l4 with
  | .tcp => do
    let th ← p.getHeader 0 TcpHdr.len
    if (TcpHdr.read th).dataOffset * 4 < TcpHdr.len then none
    else some ⟨dst, src, hton 2 (loadPacked 2 th 2), hton 2 (loadPacked 2 th 0)⟩
  | .udp => do
    let uh ← p.getHeader 0 8
    some ⟨dst, src, hton 2 (loadPacked 2 uh 2), hton 2 (loadPacked 2 uh 0)⟩
  | .icmp => none

end L4

end Netstar.Spec.Net
