import Netstar.Spec.Net.Ip

/-!
# `Netstar.Spec.Net.IpSend`: the send side of `net/ip.cc`

`ipv4::send` puts an IP header in front of a transport packet and queues it. A packet that does not fit
in the MTU is cut into fragments first. `offset` and `remaining` are `uint16_t`. The loop has a fuel
argument, since its step is empty for an MTU of 20.
-/

set_option autoImplicit false

namespace Netstar.Spec.Net

open Netstar.Lib.LittleEndian (encode)

/-- The fields of `hw_features` that the send side reads. -/
structure HwFeatures where
  mtu : Nat
  txTso : Bool
  txUfo : Bool
  txCsumIpOffload : Bool
  deriving DecidableEq, Repr

/-- How `send` can fail. -/
inductive SendError where
  /-- `share` of more bytes than the packet has. -/
  | shareBounds
  /-- The loop has not ended. -/
  | outOfFuel
  deriving DecidableEq, Repr

namespace Ipv4

/-- `ipv4_hdr_len_min` -/
def ipv4HdrLenMin : Nat := 20

/-- `needs_frag`, for a packet of this length. -/
def needsFrag (len : Nat) (protNum : Nat) (hw : HwFeatures) : Bool :=
  if len + ipv4HdrLenMin ≤ hw.mtu then false
  else if (protNum = 6 ∧ hw.txTso = true) ∨ (protNum = 17 ∧ hw.txUfo = true) then false
  else true

/-- `hton(uint32_t)` stored in a packed field. -/
def storeBe32 (v : Nat) : List UInt8 := encode 4 (hton 4 v)

/-- `_host_address`, and the arguments `to` and `proto_num` of `send`. -/
structure Destination where
  hostAddress : Nat
  dst : Nat
  protoNum : Nat
  deriving DecidableEq, Repr

/-- The header that `send_pkt` writes, with this checksum field. -/
def ipHeader (d : Destination) (len frag : Nat) (csum : List UInt8) : List UInt8 :=
  [0x45, 0] ++ Frag.storeBe16 len ++ Frag.storeBe16 0 ++ Frag.storeBe16 frag ++ [64, UInt8.ofNat d.protoNum] ++ csum ++
    storeBe32 d.hostAddress ++ storeBe32 d.dst

/-- `iph->frag`. -/
def fragField (needsFrag : Bool) (remaining offset : Nat) : Nat :=
  if needsFrag then ((if 0 < remaining then 1 else 0) <<< 13) ||| (offset / 8) else 0

/-- `send_pkt`: the packet that it queues. -/
def sendPkt (hw : HwFeatures) (d : Destination) (needsFrag : Bool) (pkt : Packet)
    (remaining offset : Nat) : Packet :=
  let len := pkt.length + ipv4HdrLenMin
  let frag := fragField needsFrag remaining offset
  let csum :=
    if hw.txCsumIpOffload then [0, 0] else encode 2 (ipChecksum (ipHeader d len frag [0, 0]))
  ipHeader d len frag csum ++ pkt

/-- `p.share(offset, len)`. -/
def share (p : Packet) (offset len : Nat) : Except SendError Packet :=
  if offset + len ≤ p.length then .ok ((p.drop offset).take len) else .error .shareBounds

/-- The loop of `send`. -/
def sendLoop (hw : HwFeatures) (d : Destination) (p : Packet) :
    Nat → Nat → Nat → Except SendError (List Packet)
  | fuel, remaining, offset =>
    if remaining = 0 then .ok []
    else match fuel with
      | 0 => .error .outOfFuel
      | fuel + 1 => do
        let canSend := min ((hw.mtu + 2 ^ 16 - ipv4HdrLenMin) % 2 ^ 16) remaining
        let remaining := remaining - canSend
        let pkt ← share p offset canSend
        let rest ← sendLoop hw d p fuel remaining ((offset + canSend) % 2 ^ 16)
        return sendPkt hw d true pkt remaining offset :: rest

/-- `ipv4::send`: the packets that it appends to `_packetq`. -/
def send (fuel : Nat) (hw : HwFeatures) (d : Destination) (p : Packet) :
    Except SendError (List Packet) :=
  if needsFrag p.length d.protoNum hw then sendLoop hw d p fuel (p.length % 2 ^ 16) 0
  else .ok [sendPkt hw d false p 0 0]

end Ipv4

end Netstar.Spec.Net
