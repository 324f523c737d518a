import Netstar.Spec.Net.Ip

/-!
# `Netstar.Spec.AsyncFlow.SdAsyncFlowHook`: packets on the way to a flow

The hook takes the frames of a port. It cuts each frame to the length of its IP datagram, computes the
flow key, and passes both on. Other frames are dropped. The preprocessors compute flow keys of their
own, from the packet that the hook passed on.

An `rte_packet` is one contiguous buffer, so it is its bytes. A header that does not lie inside the
packet is a null pointer. The hook checks for it, and the preprocessors do not.
-/

set_option autoImplicit false

namespace Netstar.Spec.AsyncFlow

open Netstar.Spec.Net

namespace SdAsyncFlowHook

/-- The key `fk`, from the IP header `h` and the transport header at an offset. -/
def flowKey (h : IpHdr) (pkt : Packet) (offset : Nat) : L4ConnId :=
  ⟨h.dstIp, h.srcIp, hton 2 (loadPacked 2 pkt (offset + 2)), hton 2 (loadPacked 2 pkt offset)⟩

/-- What the hook passes to `_udp_connector` or to `_tcp_connector`. -/
structure Produced where
  l4 : L4
  pkt : Packet
  fk : L4ConnId
  deriving DecidableEq, Repr

/-- `_recv_func`. `none` means that it passes nothing on. -/
def recvFunc (pkt : Packet) : Option Produced :=
  match pkt.getHeader 0 ethHdrLen with
  | none => none
  | some ethH =>
    if hton 2 (loadPacked 2 ethH 12) = 0x0800 then
      match pkt.getHeader ethHdrLen IpHdr.size with
      | none => none
      | some ipH =>
        let h := (IpHdr.load ipH).ntoh
        let pktLen := pkt.length - ethHdrLen
        if pktLen < h.len then none
        else
          -- `trim_back` when the packet is longer.
          let pkt : Packet := pkt.take (ethHdrLen + h.len)
          if h.mf = true ∨ h.offset ≠ 0 then none
          else if h.ipProto = 17 then
            match pkt.getHeader (ethHdrLen + h.hdrLen) 8 with
            | none => none
            | some _ => some ⟨.udp, pkt, flowKey h pkt (ethHdrLen + h.hdrLen)⟩
          else if h.ipProto = 6 then
            match pkt.getHeader (ethHdrLen + h.hdrLen) TcpHdr.len with
            | none => none
            | some tcpH =>
              if (tcpH.getD 12 0).toNat / 16 * 4 < TcpHdr.len then none
              else some ⟨.tcp, pkt, flowKey h pkt (ethHdrLen + h.hdrLen)⟩
          else none
    else none

end SdAsyncFlowHook

/-! ### The keys of the preprocessors -/

/-- The first lines of `get_flow_key` and `get_reverse_flow_key`, for a preprocessor whose transport
header has this size: the IP header, and the offset of the transport header. `none` is the access
through a null pointer. -/
def readHeaders (hdrLen : Nat) (pkt : Packet) : Option (IpHdr × Nat) :=
  match pkt.getHeader ethHdrLen IpHdr.size, pkt.getHeader (ethHdrLen + IpHdr.size) hdrLen with
  | some ipHd, some _ => some ((IpHdr.load ipHd).ntoh, ethHdrLen + IpHdr.size)
  | _, _ => none

/-- `get_flow_key`. -/
def getFlowKey (hdrLen : Nat) (pkt : Packet) : Option L4ConnId :=
  (readHeaders hdrLen pkt).map fun (ipHd, offset) =>
    ⟨ipHd.dstIp, ipHd.srcIp, hton 2 (loadPacked 2 pkt (offset + 2)), hton 2 (loadPacked 2 pkt offset)⟩

/-- `get_reverse_flow_key`. -/
def getReverseFlowKey (hdrLen : Nat) (pkt : Packet) : Option L4ConnId :=
  (readHeaders hdrLen pkt).map fun (ipHd, offset) =>
    ⟨ipHd.srcIp, ipHd.dstIp, hton 2 (loadPacked 2 pkt offset), hton 2 (loadPacked 2 pkt (offset + 2))⟩

namespace TcpPpr

/-- `get_flow_key` of this preprocessor. -/
def getFlowKey : Packet → Option L4ConnId := AsyncFlow.getFlowKey TcpHdr.len

/-- `get_reverse_flow_key` of this preprocessor. -/
def getReverseFlowKey : Packet → Option L4ConnId := AsyncFlow.getReverseFlowKey TcpHdr.len

end TcpPpr

namespace UdpPpr

/-- `get_flow_key` of this preprocessor. -/
def getFlowKey : Packet → Option L4ConnId := AsyncFlow.getFlowKey 8

/-- `get_reverse_flow_key` of this preprocessor. -/
def getReverseFlowKey : Packet → Option L4ConnId := AsyncFlow.getReverseFlowKey 8

end UdpPpr

namespace TcpReorderPpr

/-- `get_flow_key` of this preprocessor. -/
def getFlowKey : Packet → Option L4ConnId := AsyncFlow.getFlowKey TcpHdr.len

/-- `get_reverse_flow_key` of this preprocessor. -/
def getReverseFlowKey : Packet → Option L4ConnId := AsyncFlow.getReverseFlowKey TcpHdr.len

end TcpReorderPpr

end Netstar.Spec.AsyncFlow
