import Netstar.Lib.Result
import Netstar.Spec.Net.TcbSession

/-!
# `Netstar.Proofs.Net.Tcb`: what the functions of a connection leave alone

The functions that send and the functions that process an acknowledgment change the send side, the
timers and `_packetq`. `Tcb.Keeps s t` says what all of them keep: the state, the receive side, the
promise `_connect_done`, and whether the connection is in `_tcbs`. They resolve promises of the send
side and make none.

`emit_ok` gives the result of `output_one` for a payload. The proofs about what a connection sends
use it, and never unfold `emit`.
-/

set_option autoImplicit false

namespace Netstar.Proofs.Net

open Netstar.Lib
open Netstar.Spec.Net

attribute [grind =] Tcb.inState Tcb.output

/-! ### Cutting a payload out of the unsent packets -/

/-- The packets are as long as their `unsigned` lengths say. -/
def Sized (l : List Packet) : Prop := ∀ q ∈ l, q.length < 2 ^ 32

/-- The length of a packet under 2^32 bytes does not wrap. -/
theorem toNat_packetLen {p : Packet} (h : p.length < 2 ^ 32) : (packetLen p).toNat = p.length := by
  rw [packetLen, BitVec.toNat_ofNat, Nat.mod_eq_of_lt h]

/-- The length of two packets together is the sum of theirs, in 32 bits. -/
theorem packetLen_append (p q : Packet) : packetLen (p ++ q) = packetLen p + packetLen q := by
  simp [packetLen, BitVec.ofNat_add]

/-- The smaller of two words is the smaller of their values. -/
theorem toNat_umin {w : Nat} (a b : BitVec w) : (umin a b).toNat = min a.toNat b.toNat := by
  unfold umin
  split
  · rename_i h
    have := BitVec.lt_def.mp h
    omega
  · rename_i h
    have := mt BitVec.lt_def.mpr h
    omega

/-- The loop of the hard case takes the bytes that fit, and splits the packet at which it stops. -/
theorem mergeUnsent_spec (l : List Packet) (hl : Sized l) (p : Packet) (room : BitVec 32) :
    (Send.mergeUnsent p room l).1 = p ++ l.flatten.take room.toNat ∧
      (Send.mergeUnsent p room l).2.flatten = l.flatten.drop room.toNat ∧
      Sized (Send.mergeUnsent p room l).2 := by
  induction l generalizing p room with
  | nil => exact ⟨by simp [Send.mergeUnsent], by simp [Send.mergeUnsent], hl⟩
  | cons q rest ih =>
    have hq := toNat_packetLen (hl q (by simp))
    have hrest : Sized rest := fun r hr => hl r (by simp [hr])
    unfold Send.mergeUnsent
    split
    · -- The whole packet fits.
      rename_i hfits
      have hle : q.length ≤ room.toNat := hq ▸ BitVec.le_def.mp hfits
      have hroom : (room - packetLen q).toNat = room.toNat - q.length := by
        rw [BitVec.toNat_sub_of_le hfits, hq]
      obtain ⟨htake, hdrop, hsized⟩ := ih hrest (p ++ q) (room - packetLen q)
      refine ⟨?_, ?_, hsized⟩
      · rw [htake, hroom, List.flatten_cons, List.take_append, List.take_of_length_le hle,
          List.append_assoc]
      · rw [hdrop, hroom, List.flatten_cons, List.drop_append, List.drop_eq_nil_of_le hle,
          List.nil_append]
    · rename_i hlong
      have hlt : room.toNat < q.length := by
        have := mt BitVec.le_def.mpr hlong
        omega
      split
      · refine ⟨?_, ?_, ?_⟩
        · rw [List.flatten_cons, List.take_append_of_le_length (by omega)]
        · rw [List.flatten_cons, List.flatten_cons, List.drop_append_of_le_length (by omega)]
        · intro r hr
          rcases List.mem_cons.mp hr with rfl | hr
          · have := hl q (by simp)
            rw [List.length_drop]
            omega
          · exact hrest r hr
      · rename_i hzero
        have hz : room.toNat = 0 := by
          rw [not_not.mp hzero]
          rfl
        exact ⟨by simp [hz], by simp [hz], hl⟩

/-- The loop on a first packet that fits. -/
theorem mergeUnsent_fits {room : BitVec 32} {q : Packet} (hfits : packetLen q ≤ room)
    (rest : List Packet) :
    Send.mergeUnsent [] room (q :: rest) = Send.mergeUnsent q (room - packetLen q) rest := by
  rw [Send.mergeUnsent, if_pos hfits, List.nil_append]

/-- The loop on a first packet that does not fit: it is split, also when there is no room. -/
theorem mergeUnsent_split {room : BitVec 32} {q : Packet} (hlong : ¬packetLen q ≤ room)
    (rest : List Packet) :
    Send.mergeUnsent [] room (q :: rest) = (q.take room.toNat, q.drop room.toNat :: rest) := by
  rw [Send.mergeUnsent, if_neg hlong]
  split
  · rfl
  · rename_i hzero
    rw [not_not.mp hzero]
    rfl

/-- The easy and the moderate case of `get_transmit_packet` give what its loop would give. -/
theorem cutUnsent_eq_mergeUnsent (room : BitVec 32) (l : List Packet) :
    Send.cutUnsent room l = Send.mergeUnsent [] room l := by
  match l with
  | [] => rfl
  | [q] =>
    show (if packetLen q ≤ room then (q, []) else (q.take room.toNat, [q.drop room.toNat])) = _
    split
    · rename_i hfits
      rw [mergeUnsent_fits hfits, Send.mergeUnsent]
    · rename_i hlong
      rw [mergeUnsent_split hlong]
  | q :: r :: rest =>
    show (if room < packetLen q then (q.take room.toNat, q.drop room.toNat :: r :: rest)
      else Send.mergeUnsent q (room - packetLen q) (r :: rest)) = _
    split
    · rename_i hlong
      rw [mergeUnsent_split (BitVec.not_le.mpr hlong)]
    · rename_i hfits
      rw [mergeUnsent_fits (BitVec.not_lt.mp hfits)]

/-- The payload is the front of the unsent bytes, and what stays is the rest. -/
theorem cutUnsent_spec (l : List Packet) (hl : Sized l) (room : BitVec 32) :
    (Send.cutUnsent room l).1 = l.flatten.take room.toNat ∧
      (Send.cutUnsent room l).2.flatten = l.flatten.drop room.toNat ∧
      Sized (Send.cutUnsent room l).2 := by
  rw [cutUnsent_eq_mergeUnsent]
  exact mergeUnsent_spec l hl [] room

/-! ### Frames -/

/-- A segment in `_snd.data` holds at least one byte, and at most those it was sent with. -/
def Fits (seg : UnackedSegment) : Prop := 0 < seg.p.length ∧ seg.p.length ≤ seg.dataLen.toNat

/-- A segment that fits has less than 2^16 bytes. -/
theorem Fits.lt {seg : UnackedSegment} (h : Fits seg) : seg.p.length < 2 ^ 16 :=
  Nat.lt_of_le_of_lt h.2 seg.dataLen.isLt

/-- The send side `t` comes from `s` without a new promise and without a new packet. -/
structure SendKeeps (s t : Send) : Prop where
  closed : t.closed = s.closed
  sendAvailable : t.sendAvailablePromise = true → s.sendAvailablePromise = true
  allDataAcked : t.allDataAckedPromise = true → s.allDataAckedPromise = true
  sized : Sized s.unsent → Sized t.unsent
  fits : Sized s.unsent → (∀ seg ∈ s.data, Fits seg) → ∀ seg ∈ t.data, Fits seg

/-- A send side comes from itself. -/
theorem SendKeeps.refl (s : Send) : SendKeeps s s := ⟨rfl, id, id, id, fun _ => id⟩

/-- The steps of the send side compose. -/
theorem SendKeeps.trans {s t u : Send} (h : SendKeeps s t) (h' : SendKeeps t u) : SendKeeps s u where
  closed := h'.closed.trans h.closed
  sendAvailable := h.sendAvailable ∘ h'.sendAvailable
  allDataAcked := h.allDataAcked ∘ h'.allDataAcked
  sized := h'.sized ∘ h.sized
  fits := fun hsized hfits => h'.fits (h.sized hsized) (h.fits hsized hfits)

/-- `SendKeeps.trans`, with the later step first: it says which state the earlier one reaches. -/
theorem SendKeeps.after {s t u : Send} (h : SendKeeps t u) (h' : SendKeeps s t) : SendKeeps s u :=
  h'.trans h

/-- The connection `t` comes from `s` by sending or by processing an acknowledgment. -/
structure Keeps (s t : Tcb) : Prop where
  state : t.state = s.state
  connectDone : t.connectDone = s.connectDone
  rcv : t.rcv = s.rcv
  removed : t.removed = s.removed
  connected : t.connected = s.connected
  snd : SendKeeps s.snd t.snd

namespace Keeps

/-- A connection comes from itself. -/
theorem refl (s : Tcb) : Keeps s s := ⟨rfl, rfl, rfl, rfl, rfl, .refl _⟩

/-- The steps of a connection compose. -/
theorem trans {s t u : Tcb} (h : Keeps s t) (h' : Keeps t u) : Keeps s u where
  state := h'.state.trans h.state
  connectDone := h'.connectDone.trans h.connectDone
  rcv := h'.rcv.trans h.rcv
  removed := h'.removed.trans h.removed
  connected := h'.connected.trans h.connected
  snd := h.snd.trans h'.snd

/-- `Keeps.trans`, with the later step first. -/
theorem after {s t u : Tcb} (h : Keeps t u) (h' : Keeps s t) : Keeps s u := h'.trans h

/-- Only the send side changed. -/
theorem ofSend {s : Tcb} {snd : Send} (h : SendKeeps s.snd snd) : Keeps s { s with snd := snd } :=
  ⟨rfl, rfl, rfl, rfl, rfl, h⟩

end Keeps

/-- Asking for output keeps what `Keeps` says. -/
theorem keeps_output (s : Tcb) : Keeps s s.output := by
  unfold Tcb.output
  split
  · exact .refl s
  · exact ⟨rfl, rfl, rfl, rfl, rfl, .refl _⟩

/-- Clearing the delayed acknowledgment keeps what `Keeps` says. -/
theorem keeps_clearDelayedAck (s : Tcb) : Keeps s s.clearDelayedAck :=
  ⟨rfl, rfl, rfl, rfl, rfl, .refl _⟩

/-- Arming the retransmission timer again keeps what `Keeps` says. -/
theorem keeps_outputUpdateRto (s : Tcb) : Keeps s s.outputUpdateRto :=
  (keeps_output s).trans ⟨rfl, rfl, rfl, rfl, rfl, .refl _⟩

/-- `output` does not touch the send side. -/
@[simp] theorem snd_output (s : Tcb) : s.output.snd = s.snd := by
  unfold Tcb.output
  split <;> rfl

/-- `output` does not touch the packet queue. -/
@[simp] theorem packetq_output (s : Tcb) : s.output.packetq = s.packetq := by
  unfold Tcb.output
  split <;> rfl

/-- `output` does not touch the state. -/
@[simp] theorem state_output (s : Tcb) : s.output.state = s.state := (keeps_output s).state

/-- `output` does not touch the receive side. -/
@[simp] theorem rcv_output (s : Tcb) : s.output.rcv = s.rcv := (keeps_output s).rcv

/-- `output` does not remove the connection. -/
@[simp] theorem removed_output (s : Tcb) : s.output.removed = s.removed := (keeps_output s).removed

/-- Arming the retransmission timer again does not touch the send side. -/
@[simp] theorem snd_outputUpdateRto (s : Tcb) : s.outputUpdateRto.snd = s.snd := snd_output s

/-- Arming the retransmission timer again does not touch the state. -/
@[simp] theorem state_outputUpdateRto (s : Tcb) : s.outputUpdateRto.state = s.state :=
  state_output s

/-! ### `can_send` and `get_transmit_packet` -/

/-- `can_send` changes a statistic of the limited transmit phase only. -/
theorem canSend_eq (s : Send) : ∃ n, s.canSend.2 = { s with limitedTransfer := n } := by
  unfold Send.canSend
  split
  · exact ⟨s.limitedTransfer, rfl⟩
  · dsimp only
    split
    · exact ⟨_, rfl⟩
    · split <;> exact ⟨s.limitedTransfer, rfl⟩

/-- `can_send` makes no promise and no packet. -/
theorem sendKeeps_canSend (s : Send) : SendKeeps s s.canSend.2 := by
  obtain ⟨n, hn⟩ := canSend_eq s
  rw [hn]
  exact ⟨rfl, id, id, id, fun _ => id⟩

/-- `can_send` keeps what `Keeps` says. -/
theorem keeps_canSend (s : Tcb) : Keeps s s.canSend.2 := .ofSend (sendKeeps_canSend s.snd)

/-- The room that `get_transmit_packet` has for a payload. -/
def payloadRoom (tso : Bool) (s : Send) : BitVec 32 := umin s.canSend.1 (s.maxPayload tso)

/-- The largest payload does not depend on the limited transfer. -/
theorem maxPayload_limited (tso : Bool) (s : Send) (n : BitVec 32) :
    Send.maxPayload tso { s with limitedTransfer := n } = s.maxPayload tso := rfl

/-- `get_transmit_packet` cuts the payload out of the unsent packets. -/
theorem getTransmitPacket_eq (tso : Bool) (s : Send) :
    ∃ n, s.getTransmitPacket tso =
      ((Send.cutUnsent (payloadRoom tso s) s.unsent).1,
        { s with
          limitedTransfer := n
          unsent := (Send.cutUnsent (payloadRoom tso s) s.unsent).2
          unsentLen := s.unsentLen
            - packetLen (Send.cutUnsent (payloadRoom tso s) s.unsent).1 }) := by
  unfold Send.getTransmitPacket
  split
  · rename_i hempty
    refine ⟨s.limitedTransfer, ?_⟩
    have hlen : s.unsentLen - packetLen [] = s.unsentLen := by simp [packetLen]
    simp only [hempty, Send.cutUnsent, hlen]
    rw [← hempty]
  · obtain ⟨n, hn⟩ := canSend_eq s
    refine ⟨n, ?_⟩
    simp only [hn, maxPayload_limited, payloadRoom]

/-- Taking a packet out of the unsent data cuts it to a segment that fits. -/
theorem sendKeeps_getTransmitPacket (tso : Bool) (s : Send) :
    SendKeeps s (s.getTransmitPacket tso).2 := by
  obtain ⟨n, hn⟩ := getTransmitPacket_eq tso s
  rw [hn]
  exact ⟨rfl, id, id, fun hsized => (cutUnsent_spec s.unsent hsized (payloadRoom tso s)).2.2,
    fun _ => id⟩

/-- The largest payload is less than 2^16 bytes. -/
theorem toNat_maxPayload_lt (tso : Bool) (s : Send) : (s.maxPayload tso).toNat < 2 ^ 16 := by
  cases tso with
  | true =>
    show (BitVec.toNat (maxPacketLen.zeroExtend 32 - BitVec.ofNat 32 hdrLenMin)) < 2 ^ 16
    decide
  | false =>
    simp only [Send.maxPayload, Bool.false_eq_true, if_false, BitVec.truncate_eq_setWidth,
      BitVec.toNat_setWidth]
    have := (umin (mtu - BitVec.ofNat 16 hdrLenMin) s.mss).isLt
    omega

/-- What `get_transmit_packet` does to the bytes: the payload fits in one segment. -/
theorem getTransmitPacket_spec {tso : Bool} {s t : Send} {p : Packet}
    (h : s.getTransmitPacket tso = (p, t)) (hsized : Sized s.unsent) :
    p ++ t.unsent.flatten = s.unsent.flatten ∧ Sized t.unsent ∧ p.length < 2 ^ 16 ∧
      t.unsentLen = s.unsentLen - packetLen p ∧
      t = { s with
        limitedTransfer := t.limitedTransfer, unsent := t.unsent, unsentLen := t.unsentLen } := by
  obtain ⟨n, hn⟩ := getTransmitPacket_eq tso s
  rw [hn] at h
  cases h
  obtain ⟨htake, hdrop, hsized'⟩ := cutUnsent_spec s.unsent hsized (payloadRoom tso s)
  refine ⟨?_, hsized', ?_, rfl, rfl⟩
  · show _ ++ (Send.cutUnsent (payloadRoom tso s) s.unsent).2.flatten = _
    rw [htake, hdrop, List.take_append_drop]
  · have hroom : (payloadRoom tso s).toNat ≤ (s.maxPayload tso).toNat := by
      rw [payloadRoom, toNat_umin]
      exact Nat.min_le_right _ _
    have hmax := toNat_maxPayload_lt tso s
    rw [htake, List.length_take]
    omega

/-! ### `output_one` -/

/-- The length of a segment under 2^16 bytes does not wrap. -/
theorem toNat_segLen {p : Packet} (h : p.length < 2 ^ 16) : (Tcb.segLen p).toNat = p.length := by
  rw [Tcb.segLen, BitVec.truncate_eq_setWidth, BitVec.toNat_setWidth, toNat_packetLen (by omega)]
  exact Nat.mod_eq_of_lt h

/-- The window does not change while a segment is made. -/
theorem windowAllows_emitSend (s : Tcb) (r : Bool) (p : Packet) (delayed armed : Bool)
    (len : BitVec 16) :
    Tcb.windowAllows { s with
      snd := Tcb.emitSend r p s.snd, delayedAckArmed := delayed, retransmitArmed := armed } len
      = s.windowAllows len := by
  cases r <;> rfl

/-- What `emit` does: it queues one segment, or the assertion on the window fails. -/
theorem emit_ok {r : Bool} {p : Packet} {s t : Tcb} (h : s.emit r p = .ok t) :
    ∃ delayed armed, s.windowAllows (Tcb.segLen p) = true ∧
      t = { s with
        snd := Tcb.emitSend r p s.snd
        delayedAckArmed := delayed
        retransmitArmed := armed
        packetq := s.packetq ++ [s.makeSegment (s.emitSeq r) p] } := by
  simp only [Tcb.emit, windowAllows_emitSend] at h
  split at h
  · rename_i hallows
    cases h
    exact ⟨_, _, hallows, rfl⟩
  · cases h

/-- Sending a segment fails only on the assertion about the window. -/
theorem emit_error {r : Bool} {p : Packet} {s : Tcb} {f : TcbFault} :
    s.emit r p = .error f ↔ f = .windowAssert ∧ s.windowAllows (Tcb.segLen p) = false := by
  simp only [Tcb.emit, windowAllows_emitSend]
  split
  · rename_i hallows
    simp [hallows]
  · rename_i hallows
    simp only [Except.error.injEq, eq_comm (a := TcbFault.windowAssert), Bool.not_eq_true] at hallows ⊢
    simp [hallows]

/-- The payload of a retransmission is the first unacknowledged segment. The payload of a first
transmission comes from the unsent packets. -/
theorem takePayload_ok {tso r : Bool} {s : Tcb} {p : Packet} {snd : Send}
    (h : s.takePayload tso r = .ok (p, snd)) :
    (r = true ∧ snd = s.snd ∧ ∃ seg rest, s.snd.data = seg :: rest ∧ p = seg.p) ∨
      (r = false ∧ s.snd.getTransmitPacket tso = (p, snd)) := by
  cases r with
  | true =>
    simp only [Tcb.takePayload, if_true] at h
    split at h
    · cases h
    · rename_i seg rest hdata
      cases h
      exact .inl ⟨rfl, rfl, seg, rest, hdata, rfl⟩
  | false => exact .inr ⟨rfl, Except.ok.inj h⟩

/-- The payload of a first transmission becomes a segment in flight. -/
theorem sendKeeps_emitSend {tso r : Bool} {s : Tcb} {p : Packet} {snd : Send}
    (h : s.takePayload tso r = .ok (p, snd)) : SendKeeps s.snd (Tcb.emitSend r p snd) := by
  rcases takePayload_ok h with ⟨rfl, rfl, -⟩ | ⟨rfl, htransmit⟩
  · exact .refl _
  · have hkeeps := sendKeeps_getTransmitPacket tso s.snd
    rw [htransmit] at hkeeps
    refine ⟨hkeeps.closed, hkeeps.sendAvailable, hkeeps.allDataAcked, hkeeps.sized, ?_⟩
    intro hsized hfits seg hseg
    obtain ⟨-, -, hshort, -, -⟩ := getTransmitPacket_spec htransmit hsized
    have hlen := toNat_segLen hshort
    have hold := hkeeps.fits hsized hfits
    simp only [Tcb.emitSend, Bool.false_eq_true, if_false] at hseg
    split at hseg
    · exact hold seg hseg
    · rename_i htext
      rcases List.mem_append.mp hseg with hseg | hseg
      · exact hold seg hseg
      · rw [List.mem_singleton.mp hseg]
        refine ⟨Nat.pos_of_ne_zero fun hzero => htext ?_, Nat.le_of_eq hlen.symm⟩
        exact BitVec.eq_of_toNat_eq (hlen.trans hzero)

/-- `output_one` does nothing on a closed connection, and else it sends a payload. -/
theorem outputOne_ok {tso r : Bool} {s t : Tcb} (h : s.outputOne tso r = .ok t) :
    (s.state = .closed ∧ t = s) ∨
      (s.state ≠ .closed ∧ ∃ p snd, s.takePayload tso r = .ok (p, snd) ∧
        Tcb.emit r p { s with snd := snd } = .ok t) := by
  unfold Tcb.outputOne at h
  split at h
  · rename_i hclosed
    cases h
    exact .inl ⟨hclosed, rfl⟩
  · rename_i hopen
    obtain ⟨⟨p, snd⟩, htake, hemit⟩ := bind_eq_ok.mp h
    exact .inr ⟨hopen, p, snd, htake, hemit⟩

/-- Sending one segment keeps what `Keeps` says. -/
theorem keeps_outputOne {tso r : Bool} {s t : Tcb} (h : s.outputOne tso r = .ok t) : Keeps s t := by
  rcases outputOne_ok h with ⟨-, rfl⟩ | ⟨-, p, snd, htake, hemit⟩
  · exact .refl _
  · obtain ⟨delayed, armed, -, rfl⟩ := emit_ok hemit
    exact ⟨rfl, rfl, rfl, rfl, rfl, sendKeeps_emitSend htake⟩

/-- The count of a transmission does not change the bytes of the segment. -/
theorem fits_countTransmit {data rest : List UnackedSegment} {seg : UnackedSegment} (n : BitVec 32)
    (hdata : data = seg :: rest) (h : ∀ r ∈ data, Fits r) :
    ∀ r ∈ { seg with nrTransmits := n } :: rest, Fits r := by
  intro r hr
  rcases List.mem_cons.mp hr with rfl | hr
  · exact h seg (by simp [hdata])
  · exact h r (by simp [hdata, hr])

/-- A fast retransmission keeps what `Keeps` says. -/
theorem keeps_fastRetransmit {tso : Bool} {s t : Tcb} (h : s.fastRetransmit tso = .ok t) :
    Keeps s t := by
  unfold Tcb.fastRetransmit at h
  split at h
  · cases h
    exact .refl _
  · rename_i hdata
    obtain ⟨u, hu, hret⟩ := bind_eq_ok.mp h
    cases hret
    refine ((keeps_output u).after (keeps_outputOne hu)).after (.ofSend ?_)
    exact ⟨rfl, id, id, id, fun _ => fits_countTransmit _ hdata⟩

/-! ### Acknowledgments -/

/-- An acknowledgment that grows the window changes the window only. -/
theorem sendKeeps_updateCwnd {s t : Send} {n : BitVec 32} (h : s.updateCwnd n = .ok t) :
    SendKeeps s t ∧ t = { s with cwnd := t.cwnd } := by
  simp only [Send.updateCwnd] at h
  split at h
  · cases h
    exact ⟨⟨rfl, id, id, id, fun _ => id⟩, rfl⟩
  · split at h
    · cases h
    · cases h
      exact ⟨⟨rfl, id, id, id, fun _ => id⟩, rfl⟩

/-- Waking the writer makes no promise and no packet. -/
theorem sendKeeps_signalSendAvailable (s : Send) : SendKeeps s s.signalSendAvailable := by
  unfold Send.signalSendAvailable
  split
  · exact ⟨rfl, (fun h => nomatch h), id, id, fun _ => id⟩
  · exact .refl s

/-- Waking the closer makes no promise and no packet. -/
theorem sendKeeps_signalAllDataAcked (s : Send) : SendKeeps s s.signalAllDataAcked := by
  unfold Send.signalAllDataAcked
  split
  · exact ⟨rfl, id, (fun h => nomatch h), id, fun _ => id⟩
  · exact .refl s

/-- The first segment in flight is not acknowledged as a whole. -/
def FirstOpen (segAck : TcpSeq) (s : Send) : Prop :=
  ∀ seg rest, s.data = seg :: rest → (s.unacknowledged.add seg.p.length).le segAck = false

/-- Waking the writer leaves the data in flight alone. -/
theorem data_signalSendAvailable (s : Send) : s.signalSendAvailable.data = s.data := by
  unfold Send.signalSendAvailable
  split
  · rfl
  · rfl

/-- Removing acknowledged segments keeps what `SendKeeps` says, and the first segment left is open.
-/
theorem sendKeeps_ackSegments {segAck : TcpSeq} (data : List UnackedSegment) {acked n : BitVec 32}
    {s t : Send} (hsub : ∀ seg ∈ data, seg ∈ s.data)
    (h : Send.ackSegments segAck data acked s = .ok (n, t)) : SendKeeps s t ∧ FirstOpen segAck t := by
  induction data generalizing acked s with
  | nil =>
    cases h
    exact ⟨⟨rfl, id, id, id, fun _ _ _ h => nomatch h⟩, fun _ _ h => nomatch h⟩
  | cons seg rest ih =>
    simp only [Send.ackSegments] at h
    split at h
    · obtain ⟨u, hu, hrest⟩ := bind_eq_ok.mp h
      obtain ⟨hupdate, hcwnd⟩ := sendKeeps_updateCwnd hu
      have hcount : SendKeeps s u := hupdate.after ⟨rfl, id, id, id, fun _ => id⟩
      have hfirst : SendKeeps s
          { u with currentQueueSpace := u.currentQueueSpace - seg.dataLen.toNat } :=
        hcount.trans ⟨rfl, id, id, id, fun _ => id⟩
      obtain ⟨hlast, hopen⟩ := ih (fun r hr => by
        rw [data_signalSendAvailable, hcwnd]
        exact hsub r (List.mem_cons_of_mem _ hr)) hrest
      exact ⟨(hfirst.trans (sendKeeps_signalSendAvailable _)).trans hlast, hopen⟩
    · rename_i hopen
      cases h
      refine ⟨⟨rfl, id, id, id, fun _ hfits r hr => hfits r (hsub r hr)⟩, fun r rest' heq => ?_⟩
      cases heq
      exact Bool.not_eq_true _ |>.mp hopen

/-- A trim of the first segment leaves a byte of it: the number is not behind its end. -/
theorem fits_trimFirst {segAck : TcpSeq} {s : Send} {data : List UnackedSegment}
    (hopen : FirstOpen segAck s)
    (h : Send.trimFirst (segAck.sub s.unacknowledged) s.data = .ok data)
    (hfits : ∀ seg ∈ s.data, Fits seg) : ∀ seg ∈ data, Fits seg := by
  cases hdata : s.data with
  | nil =>
    rw [hdata] at h
    cases h
    exact fun _ h => nomatch h
  | cons seg rest =>
    rw [hdata] at h hfits
    obtain ⟨q, hq, hret⟩ := bind_eq_ok.mp h
    cases hret
    have hq := mapError_eq_ok.mp hq
    unfold trimFront at hq
    split at hq
    · rename_i hrange
      cases hq
      intro r hr
      have hseg := hfits seg (by simp)
      rcases List.mem_cons.mp hr with rfl | hr
      · -- Otherwise the number is the one behind the segment, which is acknowledged then.
        have hshort : segAck.sub s.unacknowledged ≠ seg.p.length := by
          intro heq
          have hend : s.unacknowledged.add seg.p.length = segAck := by
            have hraw : s.unacknowledged.raw + (segAck.raw - s.unacknowledged.raw) = segAck.raw := by
              bv_omega
            rw [TcpSeq.add, ← heq, TcpSeq.sub, BitVec.ofInt_toInt, hraw]
          have hle := hopen seg rest hdata
          rw [hend] at hle
          simp [TcpSeq.le, TcpSeq.lt, TcpSeq.sub] at hle
        have hlen := hseg.2
        show 0 < (seg.p.drop _).length ∧ (seg.p.drop _).length ≤ seg.dataLen.toNat
        rw [List.length_drop]
        omega
      · exact hfits r (List.mem_cons_of_mem _ hr)
    · cases hq

/-- `data_segment_acked` keeps what `SendKeeps` says. -/
theorem sendKeeps_dataSegmentAcked {segAck : TcpSeq} {n : BitVec 32} {s t : Send}
    (h : s.dataSegmentAcked segAck = .ok (n, t)) : SendKeeps s t := by
  obtain ⟨⟨acked, u⟩, hu, hpartial⟩ := bind_eq_ok.mp h
  obtain ⟨hkeeps, hopen⟩ := sendKeeps_ackSegments s.data (fun _ hseg => hseg) hu
  refine hkeeps.trans ?_
  simp only [Send.ackPartial] at hpartial
  split at hpartial
  · obtain ⟨data, hdata, hrest⟩ := bind_eq_ok.mp hpartial
    obtain ⟨v, hv, hret⟩ := bind_eq_ok.mp hrest
    cases hret
    refine (sendKeeps_updateCwnd hv).1.after ?_
    exact ⟨rfl, id, id, id, fun _ => fits_trimFirst hopen hdata⟩
  · cases hpartial
    exact .refl _

/-- Updating the window keeps what `Keeps` says. -/
theorem keeps_updateWindow (th : TcbHdr) (segSeq : TcpSeq) (s : Tcb) :
    Keeps s (s.updateWindow th segSeq) := ⟨rfl, rfl, rfl, rfl, rfl, ⟨rfl, id, id, id, fun _ => id⟩⟩

/-- Setting the retransmission timer keeps what `Keeps` says. -/
theorem keeps_setRetransmitTimer (s : Tcb) : Keeps s s.setRetransmitTimer := by
  unfold Tcb.setRetransmitTimer
  split
  · exact ⟨rfl, rfl, rfl, rfl, rfl, sendKeeps_signalAllDataAcked s.snd⟩
  · exact ⟨rfl, rfl, rfl, rfl, rfl, .refl _⟩

/-- Recovering from a loss keeps what `Keeps` says. -/
theorem keeps_recoverFromAck {tso : Bool} {segAck : TcpSeq} {n : BitVec 32} {s t : Tcb}
    (h : s.recoverFromAck tso segAck n = .ok t) : Keeps s t := by
  simp only [Tcb.recoverFromAck] at h
  split at h
  · cases h
    exact (keeps_setRetransmitTimer _).after (.ofSend ⟨rfl, id, id, id, fun _ => id⟩)
  · split at h
    · cases h
      exact (keeps_setRetransmitTimer _).after (.ofSend ⟨rfl, id, id, id, fun _ => id⟩)
    · obtain ⟨u, hu, hret⟩ := bind_eq_ok.mp h
      cases hret
      exact (keeps_fastRetransmit hu).trans ⟨rfl, rfl, rfl, rfl, rfl, ⟨rfl, id, id, id, fun _ => id⟩⟩

/-- An acknowledgment of new data keeps what `Keeps` says. -/
theorem keeps_ackNewData {tso : Bool} {th : TcbHdr} {segSeq : TcpSeq} {s t : Tcb}
    (h : s.ackNewData tso th segSeq = .ok t) : Keeps s t := by
  obtain ⟨⟨n, snd⟩, hacked, hrest⟩ := bind_eq_ok.mp h
  have hfirst : Keeps s { s with snd := snd } := .ofSend (sendKeeps_dataSegmentAcked hacked)
  have hlast := keeps_recoverFromAck hrest
  split at hlast
  · exact (hfirst.trans (keeps_updateWindow th segSeq _)).trans hlast
  · exact hfirst.trans hlast

/-- A duplicate acknowledgment keeps what `Keeps` says. -/
theorem keeps_duplicateAck {tso : Bool} {segAck : TcpSeq} {s t : Tcb} {d : Bool}
    (h : s.duplicateAck tso segAck = .ok (t, d)) : Keeps s t := by
  have hfirst : Keeps s { s with snd := { s.snd with dupacks := s.snd.dupacks + 1 } } :=
    .ofSend ⟨rfl, id, id, id, fun _ => id⟩
  simp only [Tcb.duplicateAck] at h
  split at h
  · cases h
    exact hfirst
  · split at h
    · obtain ⟨u, hu, hret⟩ := bind_eq_ok.mp h
      cases hret
      refine Keeps.trans (t := u) ?_ (.ofSend ⟨rfl, id, id, id, fun _ => id⟩)
      split at hu
      · exact (keeps_fastRetransmit hu).after (.ofSend ⟨rfl, id, id, id, fun _ => id⟩)
      · cases hu
        exact hfirst
    · split at h
      · cases h
        exact .ofSend ⟨rfl, id, id, id, fun _ => id⟩
      · cases h
        exact hfirst

/-- The state that a `Flow` carries. -/
def Flow.tcb : Flow → Tcb
  | .ret s => s
  | .go s _ => s

/-- An acknowledgment in ESTABLISHED keeps what `Keeps` says. -/
theorem keeps_ackEstablished {tso : Bool} {th : TcbHdr} {segSeq : TcpSeq} {p : Packet} {s : Tcb}
    {flow : Flow} (h : s.ackEstablished tso th segSeq p = .ok flow) : Keeps s (Flow.tcb flow) := by
  unfold Tcb.ackEstablished at h
  split at h
  · obtain ⟨u, hu, hret⟩ := bind_eq_ok.mp h
    cases hret
    exact keeps_ackNewData hu
  · split at h
    · obtain ⟨⟨u, d⟩, hu, hret⟩ := bind_eq_ok.mp h
      cases hret
      exact keeps_duplicateAck hu
    · split at h
      · cases h
        exact keeps_output s
      · split at h
        · cases h
          exact keeps_updateWindow th segSeq s
        · cases h
          exact .refl _

/-- The output at the end of the input keeps what `Keeps` says. -/
theorem keeps_finishInput (doOutput doOutputData : Bool) (s : Tcb) :
    Keeps s (s.finishInput doOutput doOutputData) := by
  unfold Tcb.finishInput
  split
  · exact (keeps_clearDelayedAck s).trans (keeps_output _)
  · split
    · dsimp only
      split
      · exact ((keeps_canSend s).trans (keeps_clearDelayedAck _)).trans (keeps_output _)
      · exact keeps_canSend s
    · exact .refl s

/-! ### What a segment can do to the state -/

/-- `Keeps` without the receive side and without the state. A segment may resolve the promise of a
reader. -/
structure Calm (s t : Tcb) : Prop where
  connectDone : t.connectDone = s.connectDone
  removed : t.removed = s.removed
  connected : t.connected = s.connected
  dataReceived : t.rcv.dataReceivedPromise = true → s.rcv.dataReceivedPromise = true
  snd : SendKeeps s.snd t.snd

/-- A connection comes calmly from itself. -/
theorem Calm.refl (s : Tcb) : Calm s s := ⟨rfl, rfl, rfl, id, .refl _⟩

/-- Calm steps compose. -/
theorem Calm.trans {s t u : Tcb} (h : Calm s t) (h' : Calm t u) : Calm s u where
  connectDone := h'.connectDone.trans h.connectDone
  removed := h'.removed.trans h.removed
  connected := h'.connected.trans h.connected
  dataReceived := h.dataReceived ∘ h'.dataReceived
  snd := h.snd.trans h'.snd

/-- A step that keeps the state and the receive side is calm. -/
theorem Keeps.calm {s t : Tcb} (h : Keeps s t) : Calm s t :=
  ⟨h.connectDone, h.removed, h.connected, fun hp => h.rcv ▸ hp, h.snd⟩

/-- The states that a connection which stays in `_tcbs` can go to: a FIN of the peer, or the
acknowledgment of our FIN. -/
inductive Advance : TcpState → TcpState → Prop where
  | stay (a : TcpState) : Advance a a
  | fin : Advance .established .closeWait
  | finAfterOurs : Advance .finWait1 .closing
  | finAcked : Advance .finWait1 .finWait2

/-- Deciding about an acknowledgment keeps what `Keeps` says. -/
theorem keeps_shouldSendAck (n : BitVec 16) (s : Tcb) : Keeps s (s.shouldSendAck n).2 := by
  simp only [Tcb.shouldSendAck]
  split
  · exact ⟨rfl, rfl, rfl, rfl, rfl, .refl _⟩
  · split
    · exact ⟨rfl, rfl, rfl, rfl, rfl, .refl _⟩
    · split
      · exact ⟨rfl, rfl, rfl, rfl, rfl, .refl _⟩
      · exact ⟨rfl, rfl, rfl, rfl, rfl, .refl _⟩

/-- The text goes to the data, and the out-of-order segments that continue it follow. -/
theorem takeText_ok {p : Packet} {s t : Tcb} {b : Bool} (h : s.takeText p = .ok (b, t)) :
    (p.length = 0 ∧ t = s) ∨
      (0 < p.length ∧ ∃ merged rcv,
        Receive.mergeOutOfOrder
          { s.rcv with data := s.rcv.data ++ [p], next := s.rcv.next.add p.length }
            = .ok (merged, rcv) ∧
        Keeps { s with rcv := { rcv with dataReceivedPromise := false } } t) := by
  unfold Tcb.takeText at h
  split at h
  · rename_i hpos
    obtain ⟨⟨merged, rcv⟩, hmerge, hrest⟩ := bind_eq_ok.mp h
    refine .inr ⟨hpos, merged, rcv, mapError_eq_ok.mp hmerge, ?_⟩
    have hres : _ = t := congrArg Prod.snd (Except.ok.inj hrest)
    rw [← hres]
    cases merged with
    | true => exact .refl _
    | false => exact keeps_shouldSendAck _ _
  · rename_i hzero
    cases h
    exact .inl ⟨by omega, rfl⟩

/-- Taking the text of a segment is calm and leaves the state alone. -/
theorem calm_takeText {p : Packet} {s t : Tcb} {b : Bool} (h : s.takeText p = .ok (b, t)) :
    Calm s t ∧ t.state = s.state := by
  rcases takeText_ok h with ⟨-, rfl⟩ | ⟨-, merged, rcv, -, hkeeps⟩
  · exact ⟨.refl _, rfl⟩
  · have hbase : Calm s { s with rcv := { rcv with dataReceivedPromise := false } } :=
      ⟨rfl, rfl, rfl, (fun hp => nomatch hp), .refl _⟩
    exact ⟨hbase.trans hkeeps.calm, hkeeps.state⟩

/-- The connection after a FIN, before its state changes. -/
def finReceived (finSeq : TcpSeq) (s : Tcb) : Tcb :=
  (Tcb.signalDataReceived { s with rcv := { s.rcv with next := finSeq.add 1 } }).clearDelayedAck.output

/-- Taking a FIN is calm and leaves the state alone. -/
theorem calm_finReceived (finSeq : TcpSeq) (s : Tcb) :
    Calm s (finReceived finSeq s) ∧ (finReceived finSeq s).state = s.state := by
  have hbase : Calm s
      (Tcb.signalDataReceived { s with rcv := { s.rcv with next := finSeq.add 1 } }).clearDelayedAck :=
    ⟨rfl, rfl, rfl, (fun hp => nomatch hp), .refl _⟩
  exact ⟨hbase.trans (keeps_output _).calm, (keeps_output _).state⟩

/-- The FIN of the peer was taken. -/
def finConsumed (s : Tcb) : Bool := s.inState [.closeWait, .closing, .lastAck, .timeWait]

/-- What a FIN does. It is taken when the text before it is complete, and then the state changes. In
FIN_WAIT_2 the connection is removed as well. -/
theorem takeFin_cases (finSeq : TcpSeq) (doOutput doOutputData : Bool) (s : Tcb)
    (hstate : s.state ≠ .synReceived) :
    Keeps s (s.takeFin finSeq doOutput doOutputData) ∨
      (finSeq = s.rcv.next ∧ s.inState [.closed, .listen, .synSent] = false ∧
        ∃ v, v.rcv = (finReceived finSeq s).rcv ∧ Calm s v ∧ Advance s.state v.state ∧
          (s.takeFin finSeq doOutput doOutputData = v ∧ finConsumed v = true ∨
            s.takeFin finSeq doOutput doOutputData = v.doTimeWait ∧ s.state = .finWait2 ∧
              v.state = .finWait2)) := by
  obtain ⟨hcalm, hsame⟩ := calm_finReceived finSeq s
  have hin : ∀ l, (finReceived finSeq s).inState l = s.inState l := fun l => by
    rw [Tcb.inState, Tcb.inState, hsame]
  -- The state after a FIN, and then the end of the handler.
  have hfinish : ∀ st, Calm s (Tcb.finishInput false doOutputData
        { finReceived finSeq s with state := st }) ∧
      (Tcb.finishInput false doOutputData { finReceived finSeq s with state := st }).state = st ∧
      (Tcb.finishInput false doOutputData { finReceived finSeq s with state := st }).rcv
        = (finReceived finSeq s).rcv := fun st => by
    have hkeeps := keeps_finishInput false doOutputData { finReceived finSeq s with state := st }
    have hbase : Calm s { finReceived finSeq s with state := st } :=
      ⟨hcalm.connectDone, hcalm.removed, hcalm.connected, hcalm.dataReceived, hcalm.snd⟩
    exact ⟨hbase.trans hkeeps.calm, hkeeps.state, hkeeps.rcv⟩
  by_cases hclosed : s.inState [.closed, .listen, .synSent] = true
  · left
    rw [Tcb.takeFin, if_pos hclosed]
    exact .refl s
  by_cases hfin : finSeq = s.rcv.next
  · right
    refine ⟨hfin, by simpa using hclosed, ?_⟩
    have hdef : s.takeFin finSeq doOutput doOutputData =
        if (finReceived finSeq s).inState [.synReceived, .established] then
          Tcb.finishInput false doOutputData { finReceived finSeq s with state := .closeWait }
        else if (finReceived finSeq s).inState [.finWait1] then
          Tcb.finishInput false doOutputData { finReceived finSeq s with state := .closing }
        else if (finReceived finSeq s).inState [.finWait2] then (finReceived finSeq s).doTimeWait
        else (finReceived finSeq s).finishInput false doOutputData := by
      rw [Tcb.takeFin, if_neg hclosed, if_pos hfin]
      rfl
    rw [hdef]
    simp only [hin]
    cases hst : s.state with
    | closed | listen | synSent =>
      simp [Tcb.inState, hst] at hclosed
    | synReceived => exact absurd hst hstate
    | established =>
      obtain ⟨hc, hs, hr⟩ := hfinish .closeWait
      rw [if_pos (by simp [Tcb.inState, hst])]
      exact ⟨_, hr, hc, by rw [hs]; exact .fin, .inl ⟨rfl, by simp [finConsumed, Tcb.inState, hs]⟩⟩
    | finWait1 =>
      obtain ⟨hc, hs, hr⟩ := hfinish .closing
      rw [if_neg (by simp [Tcb.inState, hst]), if_pos (by simp [Tcb.inState, hst])]
      refine ⟨_, hr, hc, by rw [hs]; exact .finAfterOurs, .inl ⟨rfl, ?_⟩⟩
      simp [finConsumed, Tcb.inState, hs]
    | finWait2 =>
      rw [if_neg (by simp [Tcb.inState, hst]), if_neg (by simp [Tcb.inState, hst]),
        if_pos (by simp [Tcb.inState, hst])]
      have hs : (finReceived finSeq s).state = .finWait2 := hsame.trans hst
      exact ⟨_, rfl, hcalm, hs ▸ .stay _, .inr ⟨rfl, rfl, hs⟩⟩
    | closeWait | closing | lastAck | timeWait =>
      rw [if_neg (by simp [Tcb.inState, hst]), if_neg (by simp [Tcb.inState, hst]),
        if_neg (by simp [Tcb.inState, hst])]
      -- The FIN was taken before.
      have hend := keeps_finishInput false doOutputData (finReceived finSeq s)
      have hs := (hend.state.trans hsame).trans hst
      refine ⟨_, hend.rcv, hcalm.trans hend.calm, hs ▸ .stay _, .inl ⟨rfl, ?_⟩⟩
      simp [finConsumed, Tcb.inState, hs]
  · left
    rw [Tcb.takeFin, if_neg hclosed, if_neg hfin]
    exact keeps_finishInput doOutput doOutputData s

/-- A segment that leaves the connection in `_tcbs`. A FIN wakes the reader. -/
structure Moves (s t : Tcb) : Prop where
  calm : Calm s t
  state : Advance s.state t.state
  signalled : finConsumed t = true → finConsumed s = true ∨ t.rcv.dataReceivedPromise = false

/-- A calm step in one state is a move. -/
theorem Calm.moves {s t : Tcb} (h : Calm s t) (hst : t.state = s.state) : Moves s t where
  calm := h
  state := hst ▸ .stay _
  signalled := by
    rw [finConsumed, Tcb.inState, hst]
    exact .inl

/-- What the text and the FIN of a segment do. -/
theorem textAndFin_cases {th : TcbHdr} {segSeq : TcpSeq} {p : Packet} {d : Bool} {s t : Tcb}
    (h : s.textAndFin th segSeq p d = .ok t) (hstate : s.state ≠ .synReceived) :
    Moves s t ∨
      ∃ v, Calm s v ∧ s.state = .finWait2 ∧ v.state = .finWait2 ∧ th.fFin = true ∧
        v.rcv.dataReceivedPromise = false ∧ t = v.doTimeWait := by
  unfold Tcb.textAndFin at h
  split at h
  · cases h
    exact .inl ((Calm.refl _).moves rfl)
  · obtain ⟨⟨doOutput, u⟩, hu, hrest⟩ := bind_eq_ok.mp h
    have htext : Calm s u ∧ u.state = s.state := by
      split at hu
      · exact calm_takeText hu
      · cases hu
        exact ⟨.refl _, rfl⟩
    obtain ⟨hcalm, hsame⟩ := htext
    have hres := Except.ok.inj hrest
    split at hres
    · rename_i hflag
      rcases takeFin_cases (segSeq.add p.length) doOutput d u (hsame ▸ hstate) with
        hkeeps | ⟨-, -, v, hrcv, hv, hadv, ⟨heq, -⟩ | ⟨heq, hfw, hfw'⟩⟩
      · rw [hres] at hkeeps
        exact .inl ((hcalm.trans hkeeps.calm).moves (hkeeps.state.trans hsame))
      · rw [hres] at heq
        subst heq
        refine .inl ⟨hcalm.trans hv, hsame ▸ hadv, fun _ => .inr ?_⟩
        rw [hrcv, finReceived, rcv_output]
        rfl
      · rw [hres] at heq
        refine .inr ⟨v, hcalm.trans hv, hsame ▸ hfw, hfw', hflag, ?_, heq⟩
        rw [hrcv, finReceived, rcv_output]
        rfl
    · rw [← hres]
      have hkeeps := keeps_finishInput doOutput d u
      exact .inl ((hcalm.trans hkeeps.calm).moves (hkeeps.state.trans hsame))

/-- What the acknowledgment of our FIN does. -/
theorem ackFin_cases (segAck : TcpSeq) (d : Bool) (s : Tcb) :
    (∃ t, s.ackFin segAck d = .go t d ∧ Calm s t ∧ t.rcv = s.rcv ∧ Advance s.state t.state ∧
        (t = s ∨ s.state = .finWait1 ∧ t.state = .finWait2 ∧ segAck = s.snd.next.add 1)) ∨
      s.ackFin segAck d = .ret s ∨
      (∃ v, Calm s v ∧ v.rcv = s.rcv ∧ v.state = s.state ∧ segAck = s.snd.next.add 1 ∧
        (s.state = .closing ∧ s.ackFin segAck d = .ret v.doTimeWait ∨
          s.state = .lastAck ∧ s.ackFin segAck d = .ret v.doClosed)) := by
  have hacked : ∀ st, Calm s (Tcb.doLocalFinAcked { s with state := st }) := fun st =>
    ⟨rfl, rfl, rfl, id, ⟨rfl, id, id, id, fun _ => id⟩⟩
  -- Where the FIN is not acknowledged the processing goes on.
  have hgo : ∃ t, Flow.go s d = .go t d ∧ Calm s t ∧ t.rcv = s.rcv ∧ Advance s.state t.state ∧
      (t = s ∨ s.state = .finWait1 ∧ t.state = .finWait2 ∧ segAck = s.snd.next.add 1) :=
    ⟨s, rfl, .refl s, rfl, .stay _, .inl rfl⟩
  unfold Tcb.ackFin
  dsimp only
  split
  · rename_i hfw
    have hst : s.state = .finWait1 := by simpa [Tcb.inState] using hfw
    left
    split
    · rename_i hacks
      refine ⟨_, rfl, hacked .finWait2, rfl, ?_, .inr ⟨hst, rfl, hacks⟩⟩
      rw [hst]
      exact .finAcked
    · exact hgo
  · split
    · rename_i hclosing
      have hst : s.state = .closing := by simpa [Tcb.inState] using hclosing
      right
      split
      · rename_i hacks
        exact .inr ⟨s.doLocalFinAcked, hacked s.state, rfl, rfl, hacks,
          .inl ⟨hst, rfl⟩⟩
      · exact .inl rfl
    · split
      · rename_i hlast
        have hst : s.state = .lastAck := by simpa [Tcb.inState] using hlast
        split
        · rename_i hacks
          exact .inr (.inr ⟨s.doLocalFinAcked, hacked s.state, rfl, rfl, hacks,
            .inr ⟨hst, rfl⟩⟩)
        · exact .inl hgo
      · exact .inl hgo

/-- A segment removes a connection that it does not reset: the peer's FIN behind the acknowledgment of
ours, or the acknowledgment of our FIN in CLOSING and LAST_ACK. -/
def FinRemoves (th : TcbHdr) (u t : Tcb) : Prop :=
  ∃ v, Calm u v ∧
    (u.inState [.finWait1, .finWait2] = true ∧ v.state = .finWait2 ∧ th.fFin = true ∧
        v.rcv.dataReceivedPromise = false ∧ t = v.doTimeWait ∨
      u.state = .closing ∧ v.state = .closing ∧ t = v.doTimeWait ∨
      u.state = .lastAck ∧ v.state = .lastAck ∧ t = v.doClosed)

/-- An advance after the acknowledgment of our FIN, or after nothing, is one advance. -/
theorem Advance.trans_finWait {a b c : TcpState} (h : Advance a b) (h' : Advance b c)
    (hb : b = a ∨ b = .finWait2) : Advance a c := by
  rcases hb with rfl | rfl
  · exact h'
  · cases h'
    exact h

/-- What a segment in sequence with an ACK does behind the handshake. The connection `v` is the one
after the acknowledgment of data, which is only looked at in ESTABLISHED and CLOSE_WAIT. -/
theorem handleSynchronized_ok {tso : Bool} {th : TcbHdr} {segSeq : TcpSeq} {p : Packet} {s t : Tcb}
    (h : s.handleSynchronized tso th segSeq p = .ok t) :
    ∃ v d, Keeps s v ∧ (s.inState [.established, .closeWait] = false → v = s) ∧ (t = v ∨
      (∃ r, v.ackFin th.ack d = .ret r ∧ t = r) ∨
      (∃ w, v.ackFin th.ack d = .go w d ∧ w.textAndFin th segSeq p d = .ok t)) := by
  obtain ⟨flow, hflow, hrest⟩ := bind_eq_ok.mp h
  have hkeeps : Keeps s (Flow.tcb flow) ∧
      (s.inState [.established, .closeWait] = false → Flow.tcb flow = s) := by
    split at hflow
    · rename_i hin
      exact ⟨keeps_ackEstablished hflow, fun hother => absurd (hin.symm.trans hother) (by decide)⟩
    · cases hflow
      exact ⟨.refl _, fun _ => rfl⟩
  cases flow with
  | ret v =>
    cases hrest
    exact ⟨_, false, hkeeps.1, hkeeps.2, .inl rfl⟩
  | go v d =>
    refine ⟨v, d, hkeeps.1, hkeeps.2, .inr ?_⟩
    rcases ackFin_cases th.ack d v with ⟨w, hw, -⟩ | hret | ⟨w, -, -, -, -, ⟨-, hret⟩ | ⟨-, hret⟩⟩
    · simp only [hw] at hrest
      exact .inr ⟨w, hw, hrest⟩
    all_goals
      simp only [hret] at hrest
      cases hrest
      exact .inl ⟨_, hret, rfl⟩

/-- What a segment in sequence with an ACK does to the state behind the handshake. -/
theorem handleSynchronized_cases {tso : Bool} {th : TcbHdr} {segSeq : TcpSeq} {p : Packet}
    {s t : Tcb} (h : s.handleSynchronized tso th segSeq p = .ok t) (hstate : s.state ≠ .synReceived) :
    Moves s t ∨ FinRemoves th s t := by
  obtain ⟨v, d, hkeeps, -, hrest⟩ := handleSynchronized_ok h
  have hv : v.state = s.state := hkeeps.state
  rcases hrest with rfl | ⟨r, hret, rfl⟩ | ⟨w, hgo, htext⟩
  · exact .inl (hkeeps.calm.moves hv)
  -- The ACK ends the handler: it does nothing, or it is for our FIN in CLOSING or LAST_ACK.
  · rcases ackFin_cases th.ack d v with ⟨w, hw, -⟩ | hsame | ⟨w, hcalm, -, hst, -, hfin⟩
    · rw [hw] at hret
      cases hret
    · rw [hsame] at hret
      cases hret
      exact .inl (hkeeps.calm.moves hv)
    · refine .inr ⟨w, hkeeps.calm.trans hcalm, ?_⟩
      rcases hfin with ⟨hclosing, heq⟩ | ⟨hlast, heq⟩
      · rw [heq] at hret
        cases hret
        exact .inr (.inl ⟨hv ▸ hclosing, hst.trans hclosing, rfl⟩)
      · rw [heq] at hret
        cases hret
        exact .inr (.inr ⟨hv ▸ hlast, hst.trans hlast, rfl⟩)
  · rcases ackFin_cases th.ack d v with
      ⟨w', hw, hcalm, -, hadv, hsame⟩ | hother | ⟨w', -, -, -, -, hother⟩
    · rw [hw] at hgo
      cases hgo
      -- It goes on to the text, in the same state or in FIN_WAIT_2.
      have hw2 : w.state = s.state ∨ w.state = .finWait2 := by
        rcases hsame with rfl | ⟨-, hfw, -⟩
        · exact .inl hv
        · exact .inr hfw
      have hnot : w.state ≠ .synReceived := by
        rcases hw2 with heq | heq
        · rw [heq]
          exact hstate
        · rw [heq]
          simp
      have hbase := hkeeps.calm.trans hcalm
      have hconsumed : finConsumed w = true → finConsumed s = true := by
        rcases hw2 with heq | heq
        · rw [finConsumed, finConsumed, Tcb.inState, Tcb.inState, heq]
          exact id
        · simp [finConsumed, Tcb.inState, heq]
      rcases textAndFin_cases htext hnot with hmoves | ⟨x, hcalm', hfw, hfw', hflag, hwoken, rfl⟩
      · exact .inl ⟨hbase.trans hmoves.calm, (hv ▸ hadv).trans_finWait hmoves.state hw2,
          fun hfin => (hmoves.signalled hfin).imp_left hconsumed⟩
      · refine .inr ⟨x, hbase.trans hcalm', .inl ⟨?_, hfw', hflag, hwoken, rfl⟩⟩
        rcases hsame with rfl | ⟨hfw1, -⟩
        · simp [Tcb.inState, ← hv, hfw]
        · simp [Tcb.inState, ← hv, hfw1]
    · rw [hother] at hgo
      cases hgo
    · rcases hother with ⟨-, heq⟩ | ⟨-, heq⟩
      all_goals
        rw [heq] at hgo
        cases hgo

/-- The connection after the acknowledgment of our SYN. -/
def synAcked (s : Tcb) : Tcb := { s.doEstablished with connected := true }

/-- The handshake: the acknowledgment of our SYN, or another number. -/
theorem ackSynReceived_cases (segAck : TcpSeq) (s : Tcb) :
    (s.state ≠ .synReceived ∧ s.ackSynReceived segAck = .go s false) ∨
      (s.state = .synReceived ∧
        (s.snd.unacknowledged.le segAck && segAck.le s.snd.next) = true ∧
        s.ackSynReceived segAck = .go (synAcked s) false) ∨
      (s.state = .synReceived ∧
        (s.snd.unacknowledged.le segAck && segAck.le s.snd.next) = false ∧
        s.ackSynReceived segAck = .ret s) := by
  unfold Tcb.ackSynReceived
  split
  · rename_i hin
    have hst : s.state = .synReceived := by simpa [Tcb.inState] using hin
    split
    · rename_i hack
      exact .inr (.inl ⟨hst, hack, rfl⟩)
    · rename_i hack
      exact .inr (.inr ⟨hst, by simpa using hack, rfl⟩)
  · rename_i hin
    exact .inl ⟨by simpa [Tcb.inState] using hin, rfl⟩

/-- What a segment in sequence does. -/
theorem handleInOrder_cases {tso : Bool} {th : TcbHdr} {segSeq : TcpSeq} {p : Packet} {s t : Tcb}
    (h : s.handleInOrder tso th segSeq p = .ok t) :
    (th.fRst = true ∧ s.state = .synReceived ∧ t = s.resolveConnectDone.doReset) ∨
      (th.fRst = true ∧ s.inState [.established, .finWait1, .finWait2, .closeWait] = true ∧
        t = s.doReset) ∨
      (th.fRst = true ∧ s.inState [.closing, .lastAck, .timeWait] = true ∧ t = s.doClosed) ∨
      (th.fSyn = true ∧ t = s.doReset) ∨ t = s ∨
      (th.fAck = true ∧ s.ackAndText tso th segSeq p = .ok t) := by
  unfold Tcb.handleInOrder at h
  split at h
  · rename_i hrst
    simp only [Bool.and_eq_true, Tcb.inState, List.contains_cons, List.contains_nil, Bool.or_false,
      beq_iff_eq] at hrst
    cases h
    exact .inl ⟨hrst.1, hrst.2, rfl⟩
  · split at h
    · rename_i hrst
      cases h
      exact .inr (.inl ⟨(Bool.and_eq_true _ _ |>.mp hrst).1, (Bool.and_eq_true _ _ |>.mp hrst).2, rfl⟩)
    · split at h
      · rename_i hrst
        obtain ⟨hflag, hin⟩ := Bool.and_eq_true _ _ |>.mp hrst
        cases h
        exact .inr (.inr (.inl ⟨hflag, hin, rfl⟩))
      · split at h
        · rename_i hsyn
          cases h
          exact .inr (.inr (.inr (.inl ⟨hsyn, rfl⟩)))
        · split at h
          · cases h
            exact .inr (.inr (.inr (.inr (.inl rfl))))
          · rename_i hack
            exact .inr (.inr (.inr (.inr (.inr ⟨by simpa using hack, h⟩))))

/-- The segment is acceptable and `r` is its text from `RCV.NXT` on. -/
def InSequence (s : Tcb) (th : TcbHdr) (p r : Packet) : Prop :=
  ∃ q, trimFront p (th.dataOffset * 4) = .ok q ∧ s.rcv.segmentAcceptable th.seq q.length = true ∧
    s.rcv.trimDuplicate th.seq q = (s.rcv.next, r)

/-- What a segment does in a synchronized state. `q` is its payload, and `r` the part of it that starts
at `segSeq` and was not received before. -/
theorem inputHandleOtherState_ok {tso : Bool} {th : TcbHdr} {p : Packet} {s t : Tcb}
    (h : s.inputHandleOtherState tso th p = .ok t) :
    ∃ q, trimFront p (th.dataOffset * 4) = .ok q ∧
      (s.rcv.segmentAcceptable th.seq q.length = false ∧ t = s.output ∨
        s.rcv.segmentAcceptable th.seq q.length = true ∧
          ∃ segSeq r, s.rcv.trimDuplicate th.seq q = (segSeq, r) ∧
            (segSeq = s.rcv.next ∧ s.handleInOrder tso th segSeq r = .ok t ∨
              segSeq ≠ s.rcv.next ∧ ∃ rcv, s.rcv.insertOutOfOrder segSeq r = .ok rcv ∧
                t = Tcb.output { s with rcv := rcv })) := by
  obtain ⟨q, hq, hrest⟩ := bind_eq_ok.mp h
  refine ⟨q, mapError_eq_ok.mp hq, ?_⟩
  split at hrest
  · rename_i hacc
    refine .inr ⟨hacc, _, _, rfl, ?_⟩
    dsimp only at hrest
    split at hrest
    · rename_i hseq
      exact .inl ⟨hseq, hrest⟩
    · rename_i hseq
      obtain ⟨rcv, hrcv, hret⟩ := bind_eq_ok.mp hrest
      cases hret
      exact .inr ⟨hseq, rcv, mapError_eq_ok.mp hrcv, rfl⟩
  · rename_i hacc
    cases hrest
    exact .inl ⟨by simpa using hacc, rfl⟩

/-- The connection after the SYN of the peer in SYN_SENT. -/
def synAnswered (th : TcbHdr) (s : Tcb) : Tcb :=
  { s with
    snd := { s.snd with unacknowledged := if th.fAck then th.ack else s.snd.unacknowledged }
    rcv := { s.rcv with next := th.seq.add 1, initial := th.seq } }

/-- The two updates of `input_handle_syn_sent_state` in one. -/
theorem synAnswered_eq (th : TcbHdr) (s : Tcb) :
    (if th.fAck then
        { { s with rcv := { s.rcv with next := th.seq.add 1, initial := th.seq } } with
          snd := { s.snd with unacknowledged := th.ack } }
      else { s with rcv := { s.rcv with next := th.seq.add 1, initial := th.seq } })
      = synAnswered th s := by
  unfold synAnswered
  split
  · rfl
  · rfl

/-- What a segment does in SYN_SENT. An acknowledgment number counts only when it acknowledges our
SYN. -/
theorem inputHandleSynSentState_cases {th : TcbHdr} {p : Packet} {s t : Tcb}
    (h : s.inputHandleSynSentState th p = .ok t) :
    t = s ∨
      (th.fRst = true ∧ th.fAck = true ∧ s.snd.initial.lt th.ack = true ∧
        th.ack.le s.snd.next = true ∧ t = s.doReset) ∨
      (th.fSyn = true ∧
        (th.fAck = true → s.snd.initial.lt th.ack = true ∧ th.ack.le s.snd.next = true) ∧
        (s.snd.initial.lt (synAnswered th s).snd.unacknowledged = true ∧
            (∃ options, t = ((synAnswered th s).initFromOptions th options).doEstablished.output) ∨
          s.snd.initial.lt (synAnswered th s).snd.unacknowledged = false ∧
            t = (synAnswered th s).doSynReceived)) := by
  obtain ⟨options, -, hrest⟩ := bind_eq_ok.mp h
  split at hrest
  · cases hrest
    exact .inl rfl
  · rename_i hrange
    -- The first test refuses an acknowledgment outside of what we have sent.
    have hnumber : th.fAck = true → s.snd.initial.lt th.ack = true ∧ th.ack.le s.snd.next = true := by
      intro hack
      rw [hack, Bool.true_and, Bool.or_eq_true, not_or] at hrange
      exact ⟨by simpa [TcpSeq.le] using hrange.1, by simpa [TcpSeq.le] using hrange.2⟩
    dsimp only at hrest
    split at hrest
    · rename_i hrst
      cases hrest
      split
      · rename_i hacc
        simp only [Bool.and_eq_true] at hacc
        obtain ⟨hlt, hle⟩ := hnumber hacc.1.1
        exact .inr (.inl ⟨hrst, hacc.1.1, hlt, hle, rfl⟩)
      · exact .inl rfl
    · split at hrest
      · cases hrest
        exact .inl rfl
      · rename_i hsyn
        refine .inr (.inr ⟨by simpa using hsyn, hnumber, ?_⟩)
        · have hanswered := synAnswered_eq th s
          dsimp only at hanswered hrest
          simp only [hanswered] at hrest
          split at hrest
          · -- Our SYN is acknowledged: the connection is established.
            rename_i hlt
            cases hrest
            exact .inl ⟨hlt, options, rfl⟩
          · -- A simultaneous open.
            rename_i hge
            cases hrest
            exact .inr ⟨Bool.eq_false_iff.mpr hge, rfl⟩

/-! ### What the other events can do to the state -/

/-- Polling again keeps what `Keeps` says. -/
theorem keeps_pollAgain (s : Tcb) : Keeps s s.pollAgain := by
  unfold Tcb.pollAgain
  split
  · exact keeps_output s
  · split
    · dsimp only
      split
      · exact (keeps_output _).after (keeps_canSend s)
      · exact keeps_canSend s
    · exact .refl s

/-- `get_packet` makes a segment when there is none, and takes the first one. -/
theorem getPacket_ok {tso : Bool} {s t : Tcb} {o : Option OutSegment}
    (h : s.getPacket tso = .ok (o, t)) :
    ∃ u, (s.packetq = [] ∧
            Tcb.outputOne tso { s with pollActive := false, pollRequested := false } false = .ok u ∨
          s.packetq ≠ [] ∧ u = { s with pollActive := false, pollRequested := false }) ∧
      (u.state = .closed ∧ o = none ∧ t = u ∨
        ∃ seg rest, u.packetq = seg :: rest ∧ o = some seg ∧
          t = Tcb.pollAgain { u with packetq := rest }) := by
  obtain ⟨u, hu, hrest⟩ := bind_eq_ok.mp h
  refine ⟨u, ?_, ?_⟩
  · split at hu
    · rename_i hempty
      exact .inl ⟨hempty, hu⟩
    · rename_i hne
      cases hu
      exact .inr ⟨hne, rfl⟩
  · split at hrest
    · rename_i hclosed
      cases hrest
      exact .inl ⟨by simpa [Tcb.inState] using hclosed, rfl, rfl⟩
    · split at hrest
      · cases hrest
      · rename_i seg rest hq
        cases hrest
        exact .inr ⟨seg, rest, hq, rfl, rfl⟩

/-- Handing a packet to the device keeps what `Keeps` says. -/
theorem keeps_getPacket {tso : Bool} {s t : Tcb} {o : Option OutSegment}
    (h : s.getPacket tso = .ok (o, t)) : Keeps s t := by
  obtain ⟨u, hu, hrest⟩ := getPacket_ok h
  have hbase : Keeps s { s with pollActive := false, pollRequested := false } :=
    ⟨rfl, rfl, rfl, rfl, rfl, .refl _⟩
  have hfirst : Keeps s u := by
    rcases hu with ⟨-, hu⟩ | ⟨-, rfl⟩
    · exact (keeps_outputOne hu).after hbase
    · exact hbase
  rcases hrest with ⟨-, -, rfl⟩ | ⟨seg, rest, -, -, rfl⟩
  · exact hfirst
  · have hpop : Keeps u { u with packetq := rest } := ⟨rfl, rfl, rfl, rfl, rfl, .refl _⟩
    exact (keeps_pollAgain _).after (hfirst.trans hpop)

/-- A window probe keeps what `Keeps` says. -/
theorem keeps_persist {tso : Bool} {s t : Tcb} (h : s.persist tso = .ok t) : Keeps s t := by
  obtain ⟨u, hu, hret⟩ := bind_eq_ok.mp h
  cases hret
  have hprobe : Keeps s u := (keeps_outputOne hu).after (.ofSend ⟨rfl, id, id, id, fun _ => id⟩)
  have hdone : Keeps s { u with snd := { u.snd with windowProbe := false } } :=
    hprobe.trans (.ofSend ⟨rfl, id, id, id, fun _ => id⟩)
  exact ((keeps_output _).after hdone).trans ⟨rfl, rfl, rfl, rfl, rfl, .refl _⟩

/-- The delayed acknowledgment keeps what `Keeps` says. -/
theorem keeps_delayedAck (s : Tcb) : Keeps s s.delayedAck :=
  (keeps_output _).after ⟨rfl, rfl, rfl, rfl, rfl, .refl _⟩

/-- `send` takes the packet. Its only promise is the one for space in the queue. -/
theorem send_cases (s : Tcb) (p : Packet) :
    (s.refusesSend = true ∧ s.send p = s) ∨
      (s.refusesSend = false ∧ ∃ u, Keeps (s.enqueue p) u ∧ (u = (s.enqueue p).canSend.2 ∨
          u = (s.enqueue p).canSend.2.output) ∧
        s.send p = { u with snd := u.snd.waitSendAvailable }) := by
  have hsend := keeps_canSend (s.enqueue p)
  unfold Tcb.send Tcb.refusesSend
  split
  · rename_i hrefuse
    exact .inl ⟨hrefuse, rfl⟩
  · rename_i haccept
    refine .inr ⟨by simpa using haccept, (s.enqueue p).outputIfCanSend, ?_, ?_, rfl⟩
    · unfold Tcb.outputIfCanSend
      dsimp only
      split
      · exact (keeps_output _).after hsend
      · exact hsend
    · unfold Tcb.outputIfCanSend
      dsimp only
      split
      · exact .inr rfl
      · exact .inl rfl

/-- The retransmission timer gave the connection up. -/
def GivesUp (s t : Tcb) : Prop := ∃ u, Keeps s u ∧ t = u.cleanup

/-- A connection given up after a step that keeps it is given up. -/
theorem GivesUp.after {s t u : Tcb} (h : GivesUp t u) (h' : Keeps s t) : GivesUp s u := by
  obtain ⟨v, hv, rfl⟩ := h
  exact ⟨v, h'.trans hv, rfl⟩

/-- Our FIN was retransmitted as often as allowed. -/
def finLimit (s : Tcb) : Prop := s.finNeedsOn = true ∧ ¬s.snd.finRetransmit < Tcb.maxNrRetransmit

/-- The earliest segment in flight was retransmitted as often as allowed. -/
def dataLimit (s : Tcb) : Prop :=
  ∃ seg rest, s.snd.data = seg :: rest ∧ ¬seg.nrTransmits < Tcb.maxNrRetransmit

/-- Our SYN was retransmitted as often as allowed. -/
def synLimit (s : Tcb) : Prop := s.synNeedsOn = true ∧ ¬s.snd.synRetransmit < Tcb.maxNrRetransmit

/-- Retransmitting data keeps the connection, or gives it up at the limit. -/
theorem retransmitData_cases {tso : Bool} {s t : Tcb} (h : s.retransmitData tso = .ok t) :
    Keeps s t ∨ (dataLimit s ∧ GivesUp s t) := by
  unfold Tcb.retransmitData at h
  split at h
  · cases h
    exact .inl (.refl _)
  · rename_i seg rest hdata
    dsimp only at h
    split at h
    · obtain ⟨u, hu, hret⟩ := bind_eq_ok.mp h
      cases hret
      have hout := (keeps_outputUpdateRto u).after (keeps_outputOne hu)
      exact .inl (hout.after (.ofSend ⟨rfl, id, id, id, fun _ => fits_countTransmit _ hdata⟩))
    · rename_i hge
      cases h
      have hslow : Keeps s { s with snd := Tcb.slowStart seg s.snd } := .ofSend ⟨rfl, id, id, id, fun _ => id⟩
      exact .inr ⟨⟨seg, rest, hdata, hge⟩, _, hslow, rfl⟩

/-- Retransmitting our FIN and then data keeps the connection, or gives it up at a limit. -/
theorem retransmitFinData_cases {tso : Bool} {s t : Tcb} (h : s.retransmitFinData tso = .ok t) :
    Keeps s t ∨ ((finLimit s ∨ dataLimit s) ∧ GivesUp s t) := by
  simp only [Tcb.retransmitFinData] at h
  split at h
  · rename_i hfin
    have hcount : Keeps s
        { s with snd := { s.snd with finRetransmit := s.snd.finRetransmit + 1 } } :=
      .ofSend ⟨rfl, id, id, id, fun _ => id⟩
    split at h
    · have hout := (keeps_outputUpdateRto _).after hcount
      rcases retransmitData_cases h with hkeeps | ⟨hlimit, hgive⟩
      · exact .inl (hkeeps.after hout)
      · refine .inr ⟨.inr ?_, hgive.after hout⟩
        obtain ⟨seg, rest, hdata, hge⟩ := hlimit
        rw [snd_outputUpdateRto] at hdata
        exact ⟨seg, rest, hdata, hge⟩
    · rename_i hge
      cases h
      exact .inr ⟨.inl ⟨hfin, hge⟩, _, hcount, rfl⟩
  · rcases retransmitData_cases h with hkeeps | ⟨hlimit, hgive⟩
    · exact .inl hkeeps
    · exact .inr ⟨.inr hlimit, hgive⟩

/-- The retransmission timer keeps the state, or it gives the connection up. In the handshake it
also resolves `_connect_done` then. -/
theorem retransmit_cases {tso : Bool} {s t : Tcb} (h : s.retransmit tso = .ok t) :
    Keeps s t ∨ (synLimit s ∧ ∃ u, Keeps s u ∧ t = u.resolveConnectDone.cleanup) ∨
      ((finLimit s ∨ dataLimit s) ∧ GivesUp s t) := by
  simp only [Tcb.retransmit] at h
  split at h
  · rename_i hsyn
    have hcount : Keeps s
        { s with snd := { s.snd with synRetransmit := s.snd.synRetransmit + 1 } } :=
      .ofSend ⟨rfl, id, id, id, fun _ => id⟩
    split at h
    · have hout := (keeps_outputUpdateRto _).after hcount
      rcases retransmitFinData_cases h with hkeeps | ⟨hlimit, hgive⟩
      · exact .inl (hkeeps.after hout)
      · refine .inr (.inr ⟨?_, hgive.after hout⟩)
        rcases hlimit with ⟨hfin, hge⟩ | ⟨seg, rest, hdata, hge⟩
        · rw [snd_outputUpdateRto] at hge
          simp only [Tcb.finNeedsOn, Tcb.inState, state_outputUpdateRto, snd_outputUpdateRto] at hfin
          exact .inl ⟨hfin, hge⟩
        · rw [snd_outputUpdateRto] at hdata
          exact .inr ⟨seg, rest, hdata, hge⟩
    · rename_i hge
      cases h
      exact .inr (.inl ⟨⟨hsyn, hge⟩, _, hcount, rfl⟩)
  · rcases retransmitFinData_cases h with hkeeps | ⟨hlimit, hgive⟩
    · exact .inl hkeeps
    · exact .inr (.inr ⟨hlimit, hgive⟩)

/-- The state that `close` moves to once all data is acknowledged. -/
def closedState : TcpState → TcpState
  | .closeWait => .lastAck
  | .established => .finWait1
  | st => st

/-- What `close` does to the state. -/
theorem closedState_eq (s : Tcb) :
    (if s.inState [.closeWait] then { s with state := .lastAck }
      else if s.inState [.established] then { s with state := .finWait1 } else s)
      = { s with state := closedState s.state } := by
  obtain ⟨st⟩ := s
  cases st <;> rfl

/-- The continuation of `close` marks the send side as closed, moves to the state that sends a FIN,
and sends it. -/
theorem closeContinuation_cases {tso : Bool} {s t : Tcb} (h : s.closeContinuation tso = .ok t) :
    Keeps { s with state := closedState s.state, snd := { s.snd with closed := true } } t := by
  obtain ⟨u, hu, hret⟩ := bind_eq_ok.mp h
  cases hret
  rw [closedState_eq] at hu
  exact (keeps_output u).after (keeps_outputOne hu)

end Netstar.Proofs.Net
