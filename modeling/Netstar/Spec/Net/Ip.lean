import Mathlib.Data.List.AList
import Netstar.Spec.Net.Forward

/-!
# `Netstar.Spec.Net.Ip`: the receive side of `net/ip.cc`

`ipv4::handle_received_packet` checks a packet. A whole datagram goes to its protocol. A fragment
goes to the entry of its datagram in `_frags`, and the datagram goes to its protocol when the last
missing fragment arrives. `_frags_age` lists the entries, oldest first. An entry leaves when its
datagram is complete, when it is older than 30 seconds, or when the entries use too much memory.

`packet::memory` adds `sizeof(packet::impl)` to the length. The size depends on the compiler, so it
is a parameter. `_frag_mem` and `mem_size` are `uint32_t`. The clock counts milliseconds.

Of the interface the model keeps what `ipv4` reads: whether the device checks checksums, its RSS key,
and its function from hashes to CPUs. The ARP table learns from received packets, which is left out.
-/

set_option autoImplicit false

namespace Netstar.Spec.Net

open Netstar.Lib.LittleEndian (decode)

/-- The fields of `ip_hdr` that the receive side uses. -/
structure IpHdr where
  ihl : Nat
  len : Nat
  id : Nat
  frag : Nat
  ipProto : Nat
  srcIp : Nat
  dstIp : Nat
  deriving DecidableEq, Repr

namespace IpHdr

/-- `sizeof(ip_hdr)`. -/
def size : Nat := 20

/-- The header as it lies in the packet. -/
def load (b : List UInt8) : IpHdr where
  ihl := (b.getD 0 0).toNat % 16
  len := loadPacked 2 b 2
  id := loadPacked 2 b 4
  frag := loadPacked 2 b 6
  ipProto := (b.getD 9 0).toNat
  srcIp := loadPacked 4 b 12
  dstIp := loadPacked 4 b 16

/-- `ntoh`. -/
def ntoh (h : IpHdr) : IpHdr :=
  { h with
    len := hton 2 h.len
    id := hton 2 h.id
    frag := hton 2 h.frag
    srcIp := hton 4 h.srcIp
    dstIp := hton 4 h.dstIp }

/-- More fragments follow. -/
def mf (h : IpHdr) : Bool := h.frag.testBit 13

/-- `offset()`, a `uint16_t`. -/
def offset (h : IpHdr) : Nat := h.frag * 8 % 2 ^ 16

/-- `ip_hdr_len`. -/
def hdrLen (h : IpHdr) : Nat := h.ihl * 4

end IpHdr

/-! ### The checksum -/

/-- The loops of `checksummer::sum` from an even position: words of 8 bytes, then of 2 bytes. -/
def checksumLoop : List UInt8 → Nat
  | b0 :: b1 :: b2 :: b3 :: b4 :: b5 :: b6 :: b7 :: rest =>
    decode [b7, b6, b5, b4, b3, b2, b1, b0] + checksumLoop rest
  | b0 :: b1 :: rest => decode [b1, b0] + checksumLoop rest
  | [b0] => b0.toNat * 256
  | [] => 0

/-- `checksummer::get`, before `htons`. -/
def checksumGet (csum : Nat) : Nat :=
  let csum := csum % 2 ^ 64 + csum / 2 ^ 64
  let csum := csum % 2 ^ 64 + csum / 2 ^ 64
  let csum := csum % 2 ^ 16 + csum / 2 ^ 16 % 2 ^ 16 + csum / 2 ^ 32 % 2 ^ 16 + csum / 2 ^ 48
  let csum := csum % 2 ^ 16 + csum / 2 ^ 16
  let csum := csum % 2 ^ 16 + csum / 2 ^ 16
  (2 ^ 64 - 1 - csum) % 2 ^ 16

/-- `ip_checksum`. -/
def ipChecksum (data : List UInt8) : Nat := hton 2 (checksumGet (checksumLoop data))

/-! ### The state -/

/-- `ipv4_frag_id`. -/
structure FragId where
  srcIp : Nat
  dstIp : Nat
  identification : Nat
  protocol : Nat
  deriving DecidableEq, Repr

/-- `ipv4::frag`. -/
structure Frag where
  header : Packet
  data : SegMap Int
  rxTime : Nat
  memSize : Nat
  lastFragReceived : Bool
  deriving DecidableEq, Repr

/-- What `ipv4` uses of its interface and its settings. -/
structure IpConfig where
  hostAddress : Nat
  /-- `hw_features().rx_csum_offload` -/
  rxCsumOffload : Bool
  /-- `_packet_filter`: whether it handles a packet. -/
  packetFilter : Option (IpHdr → Packet → Bool)
  /-- `sizeof(packet::impl)` -/
  implSize : Nat
  rssKey : List UInt8
  hash2cpu : BitVec 32 → Nat
  cpuId : Nat
  hwAddress : List UInt8

/-- The state of the reassembly in `ipv4`. `fragTimer` is the time at which `_frag_timer` expires,
when it is armed. -/
structure Ipv4 where
  frags : AList fun _ : FragId => Frag
  fragsAge : List FragId
  fragMem : Nat
  fragTimer : Option Nat

/-- What `ipv4` does with a received datagram. -/
inductive IpOutput where
  /-- `l4->received(p, src_ip, dst_ip)` -/
  | received (l4 : L4) (p : Packet) (srcIp dstIp : Nat)
  /-- `_netif->forward(cpu_id, pkt)` -/
  | forward (cpuId : Nat) (pkt : Packet)
  deriving DecidableEq, Repr

/-- How a packet can stop the program. -/
inductive IpError where
  /-- A null header in `ipv4::forward` or in `get_assembled_packet`. -/
  | nullHeader
  /-- `share` of more bytes than the packet has. -/
  | shareBounds
  /-- The assertion of `trim_front`. -/
  | trimAssert
  /-- `packet_merger::merge` stops. -/
  | merge (e : MergeError)
  deriving DecidableEq, Repr

/-- `_frag_timeout`, in milliseconds. -/
def fragTimeout : Nat := 30000

/-- `_frag_low_thresh` -/
def fragLowThresh : Nat := 3 * 1024 * 1024

/-- `_frag_high_thresh` -/
def fragHighThresh : Nat := 4 * 1024 * 1024

/-- `ip_packet_len_max` -/
def ipPacketLenMax : Nat := 65535

/-- `eth_hdr_len` -/
def ethHdrLen : Nat := 14

/-- A sum of `uint32_t`. -/
def addU32 (a b : Nat) : Nat := (a + b) % 2 ^ 32

/-- A difference of `uint32_t`. -/
def subU32 (a b : Nat) : Nat := (a + 2 ^ 32 - b) % 2 ^ 32

/-- `ipv4::forward`. It does not check the pointer of `get_header`. -/
def ipForward (out : ForwardHash) (p : Packet) (off : Nat) : Except IpError ForwardHash :=
  match p.getHeader off IpHdr.size with
  | none => .error .nullHeader
  | some b =>
    let iph := IpHdr.load b
    let out := out.pushBack 4 iph.srcIp
    let out := out.pushBack 4 iph.dstIp
    let h := iph.ntoh
    match L4.ofProto h.ipProto with
    | none => .ok out
    | some l4 =>
      if h.mf = false ∧ h.offset = 0 then .ok (l4.forward out p (off + IpHdr.size)).1 else .ok out

namespace Frag

/-- `packet::memory`. -/
def memory (cfg : IpConfig) (p : Packet) : Nat := (p.length + cfg.implSize) % 2 ^ 32

/-- The memory of the header and of the segments. -/
def memoryOf (cfg : IpConfig) (header : Packet) (data : SegMap Int) : Nat :=
  data.foldl (fun size x => addU32 size (memory cfg x.2)) (memory cfg header)

/-- `share(0, n)`, which reads beyond the fragments of a packet that is too short. -/
def sharePrefix (p : Packet) (n : Nat) : Except IpError Packet :=
  if n ≤ p.length then .ok (p.take n) else .error .shareBounds

/-- `trim_front`, with its assertion. -/
def trimPrefix (p : Packet) (n : Nat) : Except IpError Packet :=
  if n ≤ p.length then .ok (p.drop n) else .error .trimAssert

/-- `frag::merge`, without its result. The caller computes the added size. -/
def merge (cfg : IpConfig) (frag : Frag) (h : IpHdr) (offset : Nat) (p : Packet) :
    Except IpError Frag := do
  let header ← (if offset = 0 then sharePrefix p h.hdrLen else .ok frag.header)
  let p ← trimPrefix p h.hdrLen
  let data ← (Net.merge frag.data offset p).mapError .merge
  return { frag with header := header, data := data, memSize := memoryOf cfg header data }

/-- `frag::is_complete`. -/
def isComplete (frag : Frag) : Bool :=
  match frag.data with
  | [(offset, _)] => frag.lastFragReceived && offset = 0
  | _ => false

/-- `data.map.begin()->second`. -/
def ipData (frag : Frag) : Packet := (frag.data.head?.map (·.2)).getD []

/-- `hton(uint16_t)` stored in a packed field. -/
def storeBe16 (v : Nat) : List UInt8 := Lib.LittleEndian.encode 2 (hton 2 v)

/-- `frag::get_assembled_packet`. It writes the length and the fragment field through the pointer to
the IP header. -/
def getAssembledPacket (frag : Frag) (src dst : List UInt8) : Except IpError Packet :=
  let eh := dst ++ src ++ storeBe16 0x0800
  let pkt := frag.header ++ frag.ipData
  if pkt.length < IpHdr.size then .error .nullHeader
  else
    let len := storeBe16 (pkt.length % 2 ^ 16)
    .ok (eh ++ pkt.take 2 ++ len ++ (pkt.drop 4).take 2 ++ storeBe16 0 ++ pkt.drop 8)

end Frag

namespace Ipv4

/-- A new `ipv4`. -/
def create : Ipv4 := ⟨∅, [], 0, none⟩

/-- `frag_drop`. -/
def fragDrop (s : Ipv4) (fragId : FragId) (droppedSize : Nat) : Ipv4 :=
  { s with frags := s.frags.erase fragId, fragMem := subU32 s.fragMem droppedSize }

/-- `_frags[frag_id].mem_size`. -/
def memSizeOf (s : Ipv4) (fragId : FragId) : Nat := ((s.frags.lookup fragId).map (·.memSize)).getD 0

/-- The loop of `frag_limit_mem`. -/
def fragLimitLoop : Nat → List FragId → Ipv4 → Ipv4
  | _, [], s => { s with fragsAge := [] }
  | drop, fragId :: age, s =>
    if drop = 0 then { s with fragsAge := fragId :: age }
    else
      let droppedSize := s.memSizeOf fragId
      fragLimitLoop (drop - min drop droppedSize) age (s.fragDrop fragId droppedSize)

/-- `frag_limit_mem`. -/
def fragLimitMem (s : Ipv4) : Ipv4 :=
  if s.fragMem ≤ fragHighThresh then s
  else fragLimitLoop (s.fragMem - fragLowThresh) s.fragsAge s

/-- The loop of `frag_timeout`. -/
def fragTimeoutLoop (now : Nat) : List FragId → Ipv4 → Ipv4
  | [], s => { s with fragsAge := [] }
  | fragId :: age, s =>
    let rxTime := ((s.frags.lookup fragId).map (·.rxTime)).getD 0
    if rxTime + fragTimeout < now then
      fragTimeoutLoop now age (s.fragDrop fragId (s.memSizeOf fragId))
    else { s with fragsAge := fragId :: age }

/-- `frag_timeout`, the callback of `_frag_timer`. A timer that fires is not armed any more. -/
def fragTimeoutFires (s : Ipv4) (now : Nat) : Ipv4 :=
  let s := { s with fragTimer := none }
  if s.frags.entries.isEmpty then s
  else
    let s := fragTimeoutLoop now s.fragsAge s
    if s.frags.entries.isEmpty then { s with fragMem := 0 }
    else { s with fragTimer := some (now + fragTimeout) }

/-- The first part of `handle_received_packet`: the header of a packet that the host accepts, and
the packet without data beyond the IP length. `reassembled` is the flag of the offload
information. -/
def accept (cfg : IpConfig) (p : Packet) (reassembled : Bool) : Option (IpHdr × Packet) :=
  match p.getHeader 0 IpHdr.size with
  | none => none
  | some b =>
    if !cfg.rxCsumOffload && !reassembled && ipChecksum b != 0 then none
    else
      let h := (IpHdr.load b).ntoh
      if p.length < h.len then none
      else
        -- Padding of the frame is dropped.
        let p := p.take h.len
        if ipPacketLenMax < h.offset + p.length then none
        else if (cfg.packetFilter.map fun f => f h p).getD false then none
        else if h.dstIp ≠ cfg.hostAddress then none
        else some (h, p)

/-- The key that the reassembly builds for a complete datagram. -/
def reassemblyHash (l4 : L4) (h : IpHdr) (ipData : Packet) : ForwardHash × Bool :=
  let hash : ForwardHash := []
  let hash := hash.pushBack 4 (hton 4 h.srcIp)
  let hash := hash.pushBack 4 (hton 4 h.dstIp)
  l4.forward hash ipData 0

/-- A complete datagram goes to the CPU that its key selects. -/
def deliver (cfg : IpConfig) (h : IpHdr) (frag : Frag) (src : List UInt8) :
    Except IpError (List IpOutput) :=
  match L4.ofProto h.ipProto with
  | none => .ok []
  | some l4 =>
    let (hash, forwarded) := reassemblyHash l4 h frag.ipData
    if forwarded then
      let cpuId := cfg.hash2cpu (toeplitzHash cfg.rssKey hash)
      -- The ports are known only now, so the datagram may belong to another CPU.
      if cpuId = cfg.cpuId then .ok [.received l4 frag.ipData h.srcIp h.dstIp]
      else do
        let pkt ← frag.getAssembledPacket src cfg.hwAddress
        return [.forward cpuId pkt]
    else .ok []

/-- The entry of a fragment, as `_frags[frag_id]` finds or creates it, with `last_frag_received` and
`rx_time` set, and `_frags_age`. -/
def openFrag (s : Ipv4) (now : Nat) (fragId : FragId) (mf : Bool) : Frag × List FragId :=
  let frag := (s.frags.lookup fragId).getD ⟨[], [], 0, 0, false⟩
  let frag := if mf = false then { frag with lastFragReceived := true } else frag
  if frag.memSize = 0 then ({ frag with rxTime := now }, s.fragsAge ++ [fragId])
  else (frag, s.fragsAge)

/-- The reassembly in `handle_received_packet`. -/
def reassemble (cfg : IpConfig) (s : Ipv4) (now : Nat) (h : IpHdr) (p : Packet) (src : List UInt8) :
    Except IpError (Ipv4 × List IpOutput) := do
  -- Old entries make room before a new fragment is taken.
  let s := s.fragLimitMem
  let fragId : FragId := ⟨h.srcIp, h.dstIp, h.id, h.ipProto⟩
  let (frag, age) := s.openFrag now fragId h.mf
  let old := frag.memSize
  let frag ← frag.merge cfg h h.offset p
  let s := { s with
    frags := s.frags.insert fragId frag
    fragsAge := age
    fragMem := addU32 s.fragMem (subU32 frag.memSize old) }
  if frag.isComplete then
    let out ← deliver cfg h frag src
    let s := s.fragDrop fragId frag.memSize
    return ({ s with fragsAge := s.fragsAge.filter (· ≠ fragId) }, out)
  else
    return (if s.fragTimer = none then { s with fragTimer := some (now + fragTimeout) } else s, [])

/-- `handle_received_packet`. `src` is the hardware address of the sender. -/
def handleReceivedPacket (cfg : IpConfig) (s : Ipv4) (now : Nat) (p : Packet) (reassembled : Bool)
    (src : List UInt8) : Except IpError (Ipv4 × List IpOutput) :=
  match accept cfg p reassembled with
  | none => .ok (s, [])
  | some (h, p) =>
    if h.mf = true ∨ h.offset ≠ 0 then reassemble cfg s now h p src
    else
      match L4.ofProto h.ipProto with
      | none => .ok (s, [])
      | some l4 => do
        let p ← Frag.trimPrefix p h.hdrLen
        return (s, [.received l4 p h.srcIp h.dstIp])

end Ipv4

end Netstar.Spec.Net
