import Netstar.Proofs.Net.Forward
import Netstar.Spec.AsyncFlow.SdAsyncFlowHook

/-!
# `Netstar.Proofs.AsyncFlow.HookKeys`: one connection, two flow keys

The hook finds the ports behind the IP header, whatever its length. The preprocessors look at a fixed
offset, behind the first 20 bytes of the IP header. `recvFunc_spec` says what the hook has checked when
it passes a packet on: the ports that it reads are there, and those that a preprocessor reads need not
be. `flow_keys_agree_iff` says when the two see the same ports.
-/

set_option autoImplicit false

namespace Netstar.Proofs.AsyncFlow

open Netstar.Lib.LittleEndian (encode decode)
open Netstar.Proofs.Net (encode_hton encode_loadPacked)
open Netstar.Spec.AsyncFlow
open Netstar.Spec.AsyncFlow.SdAsyncFlowHook (recvFunc flowKey Produced)
open Netstar.Spec.Net

/-- The IP header of a frame. -/
def ipHeader (raw : Packet) : IpHdr := (IpHdr.load ((raw.drop ethHdrLen).take IpHdr.size)).ntoh

/-- The place of the transport header of a frame. -/
def transportOffset (raw : Packet) : Nat := ethHdrLen + (ipHeader raw).hdrLen

/-- The ports of a frame. -/
def srcPort (raw : Packet) : Nat := hton 2 (loadPacked 2 raw (transportOffset raw))

/-- The destination port, at its place in a packet without IP options. -/
def dstPort (raw : Packet) : Nat := hton 2 (loadPacked 2 raw (transportOffset raw + 2))

/-! ### The hook -/

/-- `get_header` returns the bytes at the offset when the packet has them all. -/
theorem getHeader_eq_some {p : Packet} {offset size : Nat} {b : List UInt8} :
    p.getHeader offset size = some b ↔ offset + size ≤ p.length ∧ b = (p.drop offset).take size := by
  rw [Packet.getHeader]
  split
  next h => exact ⟨fun hb => ⟨h, (Option.some.inj hb).symm⟩, fun hb => congrArg some hb.2.symm⟩
  next h => exact ⟨(fun hb => by cases hb), fun hb => absurd hb.1 h⟩

/-- What the hook has checked when it passes a packet on. -/
structure HookSpec (raw : Packet) (p : Produced) : Prop where
  long : ethHdrLen + IpHdr.size ≤ raw.length
  pkt : p.pkt = raw.take (ethHdrLen + (ipHeader raw).len)
  length : p.pkt.length = ethHdrLen + (ipHeader raw).len
  transport : transportOffset raw + p.l4.hdrLen ≤ p.pkt.length
  l4 : p.l4 = .tcp ∨ p.l4 = .udp
  dataOffset : p.l4 = .tcp →
    TcpHdr.len ≤ (p.pkt.getD (transportOffset raw + 12) 0).toNat / 16 * 4
  key : p.fk = ⟨(ipHeader raw).dstIp, (ipHeader raw).srcIp, dstPort raw, srcPort raw⟩

/-- A number in the first part of a packet. -/
theorem loadPacked_take {n i k : Nat} (h : i + n ≤ k) (p : List UInt8) :
    loadPacked n (p.take k) i = loadPacked n p i := by
  rw [loadPacked, loadPacked, List.drop_take, List.take_take, Nat.min_eq_left (by omega)]

/-- What the hook reads of a packet that it passes on. -/
theorem recvFunc_spec {raw : Packet} {p : Produced} (h : recvFunc raw = some p) :
    HookSpec raw p := by
  rw [recvFunc] at h
  split at h
  next => cases h
  next ethH _ =>
    split at h
    next =>
      split at h
      next => cases h
      next ipH hip =>
        obtain ⟨hlong, rfl⟩ := getHeader_eq_some.mp hip
        rw [show (IpHdr.load ((raw.drop ethHdrLen).take IpHdr.size)).ntoh = ipHeader raw from rfl] at h
        dsimp only at h
        split at h
        next => cases h
        next hlen =>
          have hsize : IpHdr.size = 20 := rfl
          have htotal : (raw.take (ethHdrLen + (ipHeader raw).len)).length =
              ethHdrLen + (ipHeader raw).len := by
            rw [List.length_take]
            omega
          -- The ports are in the part of the frame that is left.
          have hkey : transportOffset raw + 4 ≤ ethHdrLen + (ipHeader raw).len →
              flowKey (ipHeader raw) (raw.take (ethHdrLen + (ipHeader raw).len))
                (transportOffset raw) =
                ⟨(ipHeader raw).dstIp, (ipHeader raw).srcIp, dstPort raw, srcPort raw⟩ := by
            intro hfit
            rw [flowKey, loadPacked_take (by omega), loadPacked_take (by omega)]
            rfl
          split at h
          next => cases h
          next =>
            split at h
            next =>
              split at h
              next => cases h
              next udpH hudp =>
                cases h
                have hfit := (getHeader_eq_some.mp hudp).1
                have hfit : transportOffset raw + 8 ≤ ethHdrLen + (ipHeader raw).len := by
                  rw [← htotal]
                  exact hfit
                exact ⟨hlong, rfl, htotal, by rw [htotal]; exact hfit, .inr rfl, nofun,
                  hkey (by omega)⟩
            next =>
              split at h
              next =>
                split at h
                next => cases h
                next tcpH htcp =>
                  obtain ⟨hfit, rfl⟩ := getHeader_eq_some.mp htcp
                  have hfit' : transportOffset raw + 20 ≤ ethHdrLen + (ipHeader raw).len := by
                    rw [← htotal]
                    exact hfit
                  split at h
                  next => cases h
                  next hoffset =>
                    cases h
                    refine ⟨hlong, rfl, htotal, by rw [htotal]; exact hfit', .inl rfl, fun _ => ?_,
                      hkey (by omega)⟩
                    have hbyte : ∀ b : Packet, ((b.drop (transportOffset raw)).take 20).getD 12 0 =
                        b.getD (transportOffset raw + 12) 0 := by
                      intro b
                      simp only [List.getD_eq_getElem?_getD]
                      rw [List.getElem?_take_of_lt (by decide), List.getElem?_drop]
                    rw [← hbyte]
                    exact Nat.not_lt.mp hoffset
              next => cases h
    next => cases h

/-! ### The keys -/

/-- The two ports at an offset, as bytes. -/
def portBytes (raw : Packet) (offset : Nat) : List UInt8 := (raw.drop offset).take 4

/-- The ports as numbers tell the bytes. -/
theorem portBytes_eq_iff {raw : Packet} {i j : Nat} (hi : i + 4 ≤ raw.length)
    (hj : j + 4 ≤ raw.length) :
    portBytes raw i = portBytes raw j ↔
      hton 2 (loadPacked 2 raw i) = hton 2 (loadPacked 2 raw j) ∧
        hton 2 (loadPacked 2 raw (i + 2)) = hton 2 (loadPacked 2 raw (j + 2)) := by
  have hsplit : ∀ k, k + 4 ≤ raw.length → portBytes raw k =
      encode 2 (loadPacked 2 raw k) ++ encode 2 (loadPacked 2 raw (k + 2)) := by
    intro k hk
    rw [encode_loadPacked (by omega), encode_loadPacked (by omega), portBytes,
      ← List.drop_drop, ← List.take_add]
  have hinj : ∀ v w, hton 2 v = hton 2 w ↔ encode 2 v = encode 2 w := by
    intro v w
    constructor
    · intro h
      have hrev := congrArg (encode 2) h
      rw [encode_hton, encode_hton] at hrev
      exact List.reverse_injective hrev
    · intro h
      rw [hton, hton, h]
  rw [hsplit i hi, hsplit j hj, hinj, hinj]
  constructor
  · intro h
    exact List.append_inj h (by rw [Lib.LittleEndian.length_encode, Lib.LittleEndian.length_encode])
  · rintro ⟨h₁, h₂⟩
    rw [h₁, h₂]

/-- The frame `raw'` goes in the other direction between the same addresses and ports. -/
structure Mirrored (raw raw' : Packet) : Prop where
  srcIp : (ipHeader raw').srcIp = (ipHeader raw).dstIp
  dstIp : (ipHeader raw').dstIp = (ipHeader raw).srcIp
  src : srcPort raw' = dstPort raw
  dst : dstPort raw' = srcPort raw

/-- The keys that a preprocessor computes from the packet `p` are the keys that the hook computes, in
both directions. -/
def KeysAgree (getFlowKey getReverseFlowKey : Packet → Option L4ConnId) (raw : Packet)
    (p : Produced) : Prop :=
  getFlowKey p.pkt = some p.fk ∧
    ∀ raw' q, recvFunc raw' = some q → q.l4 = p.l4 → Mirrored raw raw' →
      getReverseFlowKey p.pkt = some q.fk

/-- A whole transport header stands behind the first 20 bytes of the IP header, with the ports of the
frame. -/
def PortsAtFixedOffset (raw : Packet) (p : Produced) : Prop :=
  ethHdrLen + IpHdr.size + p.l4.hdrLen ≤ p.pkt.length ∧
    portBytes raw (ethHdrLen + IpHdr.size) = portBytes raw (transportOffset raw)

/-- The ports fit into every transport header. -/
theorem four_le_hdrLen {raw : Packet} {p : Produced} (h : HookSpec raw p) : 4 ≤ p.l4.hdrLen := by
  rcases h.l4 with hl4 | hl4
  · rw [hl4]
    decide
  · rw [hl4]
    decide

/-- Without options in the IP header, all is well. -/
theorem portsAtFixedOffset_of_ihl {raw : Packet} {p : Produced} (h : HookSpec raw p)
    (hihl : (ipHeader raw).ihl = 5) : PortsAtFixedOffset raw p := by
  have hplace : transportOffset raw = ethHdrLen + IpHdr.size := by
    rw [transportOffset, IpHdr.hdrLen, hihl]
    rfl
  refine ⟨?_, by rw [hplace]⟩
  rw [← hplace]
  exact h.transport

/-- What a preprocessor reads. -/
theorem readHeaders_eq {raw : Packet} {p : Produced} (h : HookSpec raw p) :
    readHeaders p.l4.hdrLen p.pkt =
      if ethHdrLen + IpHdr.size + p.l4.hdrLen ≤ p.pkt.length then
        some (ipHeader raw, ethHdrLen + IpHdr.size)
      else none := by
  rw [readHeaders, Packet.getHeader, Packet.getHeader]
  by_cases hfit : ethHdrLen + IpHdr.size + p.l4.hdrLen ≤ p.pkt.length
  · rw [if_pos hfit, if_pos hfit, if_pos (by omega)]
    have hload : (p.pkt.drop ethHdrLen).take IpHdr.size = (raw.drop ethHdrLen).take IpHdr.size := by
      have hlen := h.length
      rw [h.pkt, List.drop_take, List.take_take, Nat.min_eq_left (by omega)]
    dsimp only
    rw [hload]
    rfl
  · rw [if_neg hfit, if_neg hfit]
    split <;> simp_all

/-- The keys of hook and preprocessor agree exactly when the ports are where the preprocessor reads
them. -/
theorem keysAgree_iff {raw : Packet} {p : Produced} (h : recvFunc raw = some p) :
    KeysAgree (getFlowKey p.l4.hdrLen) (getReverseFlowKey p.l4.hdrLen) raw p ↔
      PortsAtFixedOffset raw p := by
  have hspec := recvFunc_spec h
  have hfour := four_le_hdrLen hspec
  have htransport := hspec.transport
  have hlen := hspec.length
  have htotal : p.pkt.length ≤ raw.length := by
    rw [hspec.pkt]
    exact List.length_take_le' _ _
  have hload : ∀ i, i + 2 ≤ p.pkt.length → loadPacked 2 p.pkt i = loadPacked 2 raw i := by
    intro i hi
    rw [hspec.pkt]
    exact loadPacked_take (by omega) raw
  rw [KeysAgree, getFlowKey, getReverseFlowKey, readHeaders_eq hspec]
  constructor
  · rintro ⟨hkey, -⟩
    by_cases hfit : ethHdrLen + IpHdr.size + p.l4.hdrLen ≤ p.pkt.length
    · rw [if_pos hfit, Option.map_some, hspec.key] at hkey
      dsimp only at hkey
      rw [hload (_ + 2) (by omega), hload _ (by omega)] at hkey
      obtain ⟨-, -, hdst, hsrc⟩ := L4ConnId.mk.inj (Option.some.inj hkey)
      exact ⟨hfit, (portBytes_eq_iff (by omega) (by omega)).mpr ⟨hsrc, hdst⟩⟩
    · rw [if_neg hfit] at hkey
      cases hkey
  · rintro ⟨hfit, hports⟩
    obtain ⟨hsrc, hdst⟩ := (portBytes_eq_iff (by omega) (by omega)).mp hports
    rw [if_pos hfit, Option.map_some, Option.map_some]
    dsimp only
    rw [hload (ethHdrLen + IpHdr.size + 2) (by omega), hload (ethHdrLen + IpHdr.size) (by omega), hsrc,
      hdst]
    refine ⟨congrArg some hspec.key.symm, fun raw' q hq _ hmirror => ?_⟩
    rw [(recvFunc_spec hq).key, hmirror.srcIp, hmirror.dstIp, hmirror.src, hmirror.dst]
    rfl

/-- The preprocessors and the hook agree on the flow keys of a packet, in both directions, if and only
if the ports of the packet stand at the offset where the preprocessors look for them. That is the case
when the IP header has no options. -/
theorem flow_keys_agree_iff {raw : Packet} {p : Produced} (h : recvFunc raw = some p) :
    ((ipHeader raw).ihl = 5 → PortsAtFixedOffset raw p) ∧
    (p.l4 = .tcp →
      (KeysAgree TcpPpr.getFlowKey TcpPpr.getReverseFlowKey raw p ↔ PortsAtFixedOffset raw p) ∧
      (KeysAgree TcpReorderPpr.getFlowKey TcpReorderPpr.getReverseFlowKey raw p ↔
        PortsAtFixedOffset raw p)) ∧
    (p.l4 = .udp →
      (KeysAgree UdpPpr.getFlowKey UdpPpr.getReverseFlowKey raw p ↔ PortsAtFixedOffset raw p)) := by
  have hiff := keysAgree_iff h
  refine ⟨portsAtFixedOffset_of_ihl (recvFunc_spec h), fun hl4 => ?_, fun hl4 => ?_⟩
  · rw [hl4] at hiff
    exact ⟨hiff, hiff⟩
  · rw [hl4] at hiff
    exact hiff

/-- A UDP frame from port 1 to port 2, with these options in the IP header. -/
def udpFrame (options : List UInt8) : Packet :=
  List.replicate 12 0 ++ [8, 0] ++
    [UInt8.ofNat (69 + options.length / 4), 0, 0, UInt8.ofNat (28 + options.length), 0, 0, 0, 0, 64,
      17, 0, 0, 10, 0, 0, 1, 10, 0, 0, 2] ++ options ++ [0, 1, 0, 2, 0, 8, 0, 0]

/-- A UDP packet without IP options. -/
theorem flow_keys_agree_without_options :
    KeysAgree UdpPpr.getFlowKey UdpPpr.getReverseFlowKey (udpFrame [])
      ⟨.udp, udpFrame [], ⟨0x0a000002, 0x0a000001, 2, 1⟩⟩ := by
  have h : recvFunc (udpFrame []) = some ⟨.udp, udpFrame [], ⟨0x0a000002, 0x0a000001, 2, 1⟩⟩ := by
    decide
  obtain ⟨hihl, -, hudp⟩ := flow_keys_agree_iff h
  exact (hudp rfl).mpr (hihl (by decide))

/-- With 4 bytes of options, the preprocessor takes the options for the ports. -/
theorem not_flow_keys_agree_options :
    recvFunc (udpFrame [7, 4, 4, 0]) =
        some ⟨.udp, udpFrame [7, 4, 4, 0], ⟨0x0a000002, 0x0a000001, 2, 1⟩⟩ ∧
      UdpPpr.getFlowKey (udpFrame [7, 4, 4, 0]) = some ⟨0x0a000002, 0x0a000001, 1024, 1796⟩ ∧
      ¬KeysAgree UdpPpr.getFlowKey UdpPpr.getReverseFlowKey (udpFrame [7, 4, 4, 0])
        ⟨.udp, udpFrame [7, 4, 4, 0], ⟨0x0a000002, 0x0a000001, 2, 1⟩⟩ := by
  have hkey : UdpPpr.getFlowKey (udpFrame [7, 4, 4, 0]) =
      some ⟨0x0a000002, 0x0a000001, 1024, 1796⟩ := by decide
  refine ⟨by decide, hkey, ?_⟩
  rintro ⟨h, -⟩
  rw [hkey] at h
  exact absurd h (by decide)

end Netstar.Proofs.AsyncFlow
