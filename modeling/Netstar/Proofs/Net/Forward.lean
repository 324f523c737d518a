import Mathlib.Tactic.Set
import Netstar.Spec.Net.Ip

/-!
# `Netstar.Proofs.Net.Forward`: the key of a packet and the key of its connection

The CPU of a connection is chosen by the key that `l4connid::hash` builds. A datagram reaches that
CPU when the forwarding path builds the same key for it. `forward_key_iff` says when it does. The
reassembly always does. `ipv4::forward` looks for the ports behind a header of 20 bytes, and the
receive path looks for them behind the header length that the packet states.
-/

set_option autoImplicit false

namespace Netstar.Proofs.Net

open Netstar.Lib.LittleEndian (encode decode encode_decode length_encode)
open Netstar.Spec.Net

/-- A datagram at the point where its CPU is chosen. -/
inductive Datagram where
  /-- A frame with a whole datagram, which goes through `ipv4::forward`. -/
  | whole (frame : Packet)
  /-- The header of the last fragment and the data of a datagram that was reassembled. -/
  | reassembled (h : IpHdr) (ipData : Packet)

/-- The key that the forwarding path builds. -/
def forwardKey : Datagram → Option ForwardHash
  | .whole frame => (ipForward [] frame ethHdrLen).toOption
  | .reassembled h ipData =>
    (L4.ofProto h.ipProto).map fun l4 => (Ipv4.reassemblyHash l4 h ipData).1

/-- The receive path accepts the datagram and looks it up under the connection id. -/
inductive LooksUp (cfg : IpConfig) : Datagram → L4ConnId → Prop
  | whole {frame p : Packet} {flag : Bool} {h : IpHdr} {l4 : L4} {id : L4ConnId}
      (accepted : Ipv4.accept cfg (frame.drop ethHdrLen) flag = some (h, p))
      (notFragment : h.mf = false ∧ h.offset = 0) (proto : L4.ofProto h.ipProto = some l4)
      (trim : h.hdrLen ≤ p.length)
      (lookup : l4.connId (p.drop h.hdrLen) h.srcIp h.dstIp = some id) :
      LooksUp cfg (.whole frame) id
  | reassembled {h : IpHdr} {ipData : Packet} {l4 : L4} {id : L4ConnId}
      (proto : L4.ofProto h.ipProto = some l4)
      (lookup : l4.connId ipData h.srcIp h.dstIp = some id) :
      LooksUp cfg (.reassembled h ipData) id

/-- A whole datagram has a header of its protocol behind the first 20 bytes, with the ports that also
stand behind its IP header. -/
def PortsMatch : Datagram → Prop
  | .whole frame =>
    let d := frame.drop ethHdrLen
    let h := (IpHdr.load d).ntoh
    (∃ l4, L4.ofProto h.ipProto = some l4 ∧ IpHdr.size + l4.hdrLen ≤ d.length) ∧
      (d.drop IpHdr.size).take 4 = (d.drop h.hdrLen).take 4
  | .reassembled _ _ => True

/-! ### Bytes -/

/-- A number that is loaded and pushed gives its bytes. -/
theorem encode_loadPacked {n i : Nat} {b : List UInt8} (h : i + n ≤ b.length) :
    encode n (loadPacked n b i) = (b.drop i).take n := by
  have hlen : ((b.drop i).take n).length = n := by
    rw [List.length_take, List.length_drop]
    omega
  have hround := encode_decode ((b.drop i).take n)
  rwa [hlen] at hround

/-- A number in network order has its bytes in reverse. -/
theorem encode_hton (n v : Nat) : encode n (hton n v) = (encode n v).reverse := by
  have hround := encode_decode (encode n v).reverse
  rwa [List.length_reverse, length_encode] at hround

/-- `hton` after `ntoh`. -/
theorem encode_hton_hton (n v : Nat) : encode n (hton n (hton n v)) = encode n v := by
  rw [encode_hton, encode_hton, List.reverse_reverse]

/-- The first 4 bytes of a header are its two ports. -/
theorem ports_eq_take {b : List UInt8} (h : 4 ≤ b.length) :
    encode 2 (loadPacked 2 b 0) ++ encode 2 (loadPacked 2 b 2) = b.take 4 := by
  rw [encode_loadPacked (by omega), encode_loadPacked (by omega), List.drop_zero,
    ← List.take_add]

/-! ### The two keys -/

/-- The key of the connection that a packet without its IP header belongs to. -/
theorem connId_spec {l4 : L4} {p : Packet} {src dst : Nat} {id : L4ConnId}
    (h : l4.connId p src dst = some id) :
    id.hashData = encode 4 (hton 4 src) ++ encode 4 (hton 4 dst) ++ p.take 4 ∧
      l4.hdrLen ≤ p.length ∧ 4 ≤ l4.hdrLen := by
  have hkey : ∀ n, 4 ≤ n → n ≤ p.length →
      L4ConnId.hashData ⟨dst, src, hton 2 (loadPacked 2 (p.take n) 2),
        hton 2 (loadPacked 2 (p.take n) 0)⟩ =
        encode 4 (hton 4 src) ++ encode 4 (hton 4 dst) ++ p.take 4 := by
    intro n hn hlen
    have hports := ports_eq_take (b := p.take n) (by rw [List.length_take]; omega)
    rw [List.take_take, Nat.min_eq_left hn] at hports
    simp only [L4ConnId.hashData, ForwardHash.pushBack, List.nil_append, encode_hton_hton,
      List.append_assoc, hports]
  cases l4 with
  | tcp =>
    simp only [L4.connId, Packet.getHeader, Nat.zero_add, List.drop_zero] at h
    split at h
    · rename_i hlen
      simp only [bind, Option.bind] at h
      split at h
      · cases h
      · cases h
        exact ⟨hkey _ (by decide) hlen, hlen, by decide⟩
    · cases h
  | icmp => cases h
  | udp =>
    simp only [L4.connId, Packet.getHeader, Nat.zero_add, List.drop_zero] at h
    split at h
    · rename_i hlen
      cases h
      exact ⟨hkey _ (by decide) hlen, hlen, by decide⟩
    · cases h

/-- `forward` pushes the ports when the whole header is there. -/
theorem forward_spec {l4 : L4} (hl4 : 4 ≤ l4.hdrLen) (h : ForwardHash) (p : Packet) (off : Nat) :
    l4.forward h p off =
      (if off + l4.hdrLen ≤ p.length then h ++ (p.drop off).take 4 else h, true) := by
  by_cases hlen : off + l4.hdrLen ≤ p.length
  · have hget : p.getHeader off l4.hdrLen = some ((p.drop off).take l4.hdrLen) := if_pos hlen
    have hports := ports_eq_take (b := (p.drop off).take l4.hdrLen)
      (by rw [List.length_take, List.length_drop]; omega)
    have htake : ((p.drop off).take l4.hdrLen).take 4 = (p.drop off).take 4 := by
      rw [List.take_take, Nat.min_eq_left hl4]
    rw [htake] at hports
    rw [if_pos hlen]
    cases l4 with
    | tcp =>
      unfold L4.forward
      dsimp only [L4.hdrLen] at hget htake ⊢
      rw [hget, ← htake]
    | icmp => exact absurd hl4 (by decide)
    | udp =>
      unfold L4.forward ForwardHash.pushBack
      dsimp only [L4.hdrLen] at hget hports ⊢
      rw [hget, ← hports, ← List.append_assoc]
  · have hget : p.getHeader off l4.hdrLen = none := if_neg hlen
    rw [if_neg hlen]
    cases l4 with
    | tcp =>
      unfold L4.forward
      dsimp only [L4.hdrLen] at hget ⊢
      rw [hget]
    | icmp => exact absurd hl4 (by decide)
    | udp =>
      unfold L4.forward
      dsimp only [L4.hdrLen] at hget ⊢
      rw [hget]

/-- Loading a header reads its own bytes only. -/
theorem load_take (d : List UInt8) : IpHdr.load (d.take IpHdr.size) = IpHdr.load d := by
  simp [IpHdr.load, IpHdr.size, loadPacked, List.drop_take, List.take_take, List.getD]

/-- What the receive path knows about a packet that it accepts. -/
theorem accept_spec {cfg : IpConfig} {d p : Packet} {flag : Bool} {h : IpHdr}
    (haccept : Ipv4.accept cfg d flag = some (h, p)) :
    IpHdr.size ≤ d.length ∧ h = (IpHdr.load d).ntoh ∧ h.len ≤ d.length ∧ p = d.take h.len ∧
      h.offset + h.len ≤ ipPacketLenMax := by
  unfold Ipv4.accept Packet.getHeader at haccept
  rw [Nat.zero_add, List.drop_zero] at haccept
  by_cases hsize : IpHdr.size ≤ d.length
  · rw [if_pos hsize] at haccept
    simp only [load_take] at haccept
    split at haccept
    · cases haccept
    · split at haccept
      · cases haccept
      · rename_i hlen
        split at haccept
        · cases haccept
        · rename_i hmax
          split at haccept
          · cases haccept
          · split at haccept
            · cases haccept
            · cases haccept
              rw [List.length_take] at hmax
              exact ⟨hsize, rfl, Nat.le_of_not_lt hlen, rfl, by omega⟩
  · rw [if_neg hsize] at haccept
    cases haccept

/-- `ipv4::forward` of a datagram that is not a fragment. -/
theorem ipForward_spec {frame : Packet} {l4 : L4} (hl4 : 4 ≤ l4.hdrLen)
    (hsize : IpHdr.size ≤ (frame.drop ethHdrLen).length)
    (hproto : L4.ofProto (IpHdr.load (frame.drop ethHdrLen)).ntoh.ipProto = some l4)
    (hwhole : (IpHdr.load (frame.drop ethHdrLen)).ntoh.mf = false ∧
      (IpHdr.load (frame.drop ethHdrLen)).ntoh.offset = 0) :
    let d := frame.drop ethHdrLen
    let key := encode 4 (IpHdr.load d).srcIp ++ encode 4 (IpHdr.load d).dstIp
    ipForward [] frame ethHdrLen = .ok (if IpHdr.size + l4.hdrLen ≤ d.length then
      key ++ (d.drop IpHdr.size).take 4 else key) := by
  intro d key
  have hlen : d.length = frame.length - ethHdrLen := List.length_drop
  have hget : frame.getHeader ethHdrLen IpHdr.size = some (d.take IpHdr.size) :=
    if_pos (by rw [List.length_drop] at hsize; simp only [IpHdr.size] at hsize ⊢; omega)
  unfold ipForward
  rw [hget]
  dsimp only
  rw [load_take, hproto]
  dsimp only
  rw [if_pos hwhole, forward_spec hl4, List.drop_drop]
  have hcond : ethHdrLen + IpHdr.size + l4.hdrLen ≤ frame.length ↔
      IpHdr.size + l4.hdrLen ≤ d.length := by
    simp only [IpHdr.size] at hsize ⊢
    omega
  simp only [hcond, ForwardHash.pushBack, List.nil_append]
  rfl

/-- The forwarding path and the connection agree on the CPU of a datagram exactly when the ports
stand where `ipv4::forward` looks for them. -/
theorem forward_key_iff {cfg : IpConfig} {d : Datagram} {id : L4ConnId} (h : LooksUp cfg d id) :
    forwardKey d = some id.hashData ↔ PortsMatch d := by
  cases h with
  | @whole frame p flag h l4 id accepted notFragment proto trim lookup =>
    obtain ⟨hsize, rfl, hlen, rfl, _⟩ := accept_spec accepted
    obtain ⟨hkey, hhdr, hl4⟩ := connId_spec lookup
    set d := frame.drop ethHdrLen with hd
    set h := (IpHdr.load d).ntoh with hh
    have hports : ((d.take h.len).drop h.hdrLen).take 4 = (d.drop h.hdrLen).take 4 := by
      rw [List.length_drop, List.length_take] at hhdr
      rw [List.drop_take, List.take_take, Nat.min_eq_left (by omega)]
    have haddrs : id.hashData = encode 4 (IpHdr.load d).srcIp ++ encode 4 (IpHdr.load d).dstIp ++
        (d.drop h.hdrLen).take 4 := by
      rw [hkey, hports, hh]
      simp only [IpHdr.ntoh, encode_hton_hton]
    have hforward := ipForward_spec hl4 hsize proto notFragment
    simp only [forwardKey, PortsMatch, hforward, haddrs, ← hd, ← hh, Except.toOption,
      Option.some.injEq]
    constructor
    · intro heq
      split at heq
      · rename_i hfits
        exact ⟨⟨l4, proto, hfits⟩, List.append_cancel_left heq⟩
      · -- without ports the key is 4 bytes too short
        have hlength := congrArg List.length heq
        rw [List.length_drop, List.length_take] at hhdr
        simp only [List.length_append, List.length_take, List.length_drop] at hlength
        omega
    · rintro ⟨⟨l4', hl4', hfits⟩, heq⟩
      obtain rfl : l4' = l4 := Option.some.inj (hl4'.symm.trans proto)
      rw [if_pos hfits, heq]
  | @reassembled h ipData l4 id proto lookup =>
    obtain ⟨hkey, hhdr, hl4⟩ := connId_spec lookup
    refine iff_of_true ?_ trivial
    simp only [forwardKey, Ipv4.reassemblyHash]
    rw [proto, Option.map_some, forward_spec hl4, if_pos (by omega), hkey]
    rfl

/-- A host at 10.0.0.1 whose device checks checksums. -/
def sampleHost : IpConfig :=
  ⟨0x0a000001, true, none, 168, [], fun _ => 0, 0, []⟩

/-- A frame from port 0x1234 of 10.0.0.2 to port 80 of the host, with the given IP options. -/
def sampleFrame (options : List UInt8) : Packet :=
  List.replicate ethHdrLen 0 ++
    [0x45 + UInt8.ofNat (options.length / 4), 0, 0, 40 + UInt8.ofNat options.length, 0, 7, 0, 0, 64, 6,
      0, 0, 10, 0, 0, 2, 10, 0, 0, 1] ++ options ++
    [0x12, 0x34, 0, 80, 0, 0, 0, 1, 0, 0, 0, 0, 0x50, 2, 0xff, 0xff, 0, 0, 0, 0]

/-- The connection that the frame belongs to. -/
def sampleId : L4ConnId := ⟨0x0a000001, 0x0a000002, 80, 0x1234⟩

/-- Without options the two keys are equal. -/
theorem forward_key_iff_plain :
    LooksUp sampleHost (.whole (sampleFrame [])) sampleId ∧
      forwardKey (.whole (sampleFrame [])) = some sampleId.hashData := by
  have hlook : LooksUp sampleHost (.whole (sampleFrame [])) sampleId :=
    @LooksUp.whole _ _ _ false _ _ _ rfl (by decide) rfl (by decide) rfl
  exact ⟨hlook, (forward_key_iff hlook).mpr ⟨⟨.tcp, rfl, by decide⟩, rfl⟩⟩

/-- With four bytes of options `ipv4::forward` takes them for the ports. -/
theorem forward_key_options :
    LooksUp sampleHost (.whole (sampleFrame [1, 1, 1, 0])) sampleId ∧
      forwardKey (.whole (sampleFrame [1, 1, 1, 0])) ≠ some sampleId.hashData := by
  exact ⟨@LooksUp.whole _ _ _ false _ _ _ rfl (by decide) rfl (by decide) rfl, by decide⟩

end Netstar.Proofs.Net
