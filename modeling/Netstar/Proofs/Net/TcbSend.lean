import Netstar.Proofs.Net.Tcb
import Netstar.Proofs.Net.TcpMerger

/-!
# `Netstar.Proofs.Net.TcbSend`: the send side of a connection and the stream of the application

The application passes its stream to `send` in packets. `get_transmit_packet` cuts payloads out of
the unsent packets, `output_one` moves them to `_snd.data`, and an acknowledgment removes or trims
segments there. `SendInv stream acked s` is the invariant of these moves: the first `acked` bytes of
the stream are acknowledged, and the bytes in `_snd.data` followed by the unsent bytes are the rest.

No acknowledgment number breaks it. A number that passes the test of the handler is at most
`SND.NXT`, also when `2^31` or more bytes are in flight (`le_flight`), so `data_segment_acked` removes
bytes that were sent. The counter `unsent_len` has 32 bits and the bytes are not limited, so the
invariant keeps its value modulo `2^32`.
-/

set_option autoImplicit false

namespace Netstar.Proofs.Net

open Netstar.Lib
open Netstar.Spec.Net

/-! ### Acknowledgment numbers -/

/-- A number that counts as newer is at most `2^31` ahead. -/
theorem ahead_of_lt {una ack : TcpSeq} (h : una.lt ack = true) :
    ∃ a : Nat, 0 < a ∧ a ≤ 2 ^ 31 ∧ ack = una.add a := by
  have hneg : (una.raw - ack.raw).toInt < 0 := by simpa [TcpSeq.lt, TcpSeq.sub] using h
  rw [BitVec.toInt_eq_toNat_cond] at hneg
  have hfar : 2 ^ 31 ≤ (una.raw - ack.raw).toNat := by
    split at hneg
    · omega
    · omega
  refine ⟨(ack.raw - una.raw).toNat, by bv_omega, by bv_omega, ?_⟩
  show ack = ⟨una.raw + BitVec.ofInt 32 ((ack.raw - una.raw).toNat : Int)⟩
  have hraw : una.raw + (ack.raw - una.raw) = ack.raw := by bv_omega
  rw [BitVec.ofInt_natCast, BitVec.ofNat_toNat, BitVec.setWidth_eq, hraw]

/-- Adding to a sequence number wraps. -/
theorem add_eq_wrap (s : TcpSeq) (n : Int) : s.add n = wrap s.raw n := rfl

/-- Two steps of a sequence number are one. -/
theorem add_add (s : TcpSeq) (m n : Int) : (s.add m).add n = s.add (m + n) := add_wrap s.raw m n

/-- No step leaves a sequence number. -/
@[simp] theorem add_zero (s : TcpSeq) : s.add 0 = s := by simp [TcpSeq.add]

/-- An acknowledgment number that the handler takes acknowledges only bytes that were sent, however
many these are. -/
theorem le_flight {una : TcpSeq} {a flight : Nat} (ha : 0 < a) (ha' : a ≤ 2 ^ 31)
    (hle : (una.add a).le (una.add flight) = true) : a ≤ flight := by
  by_contra hgt
  rw [add_eq_wrap, add_eq_wrap, le_wrap _ _ _ (by omega) (by omega), decide_eq_true_eq] at hle
  omega

/-! ### The invariant -/

/-- The bytes of `_snd.data`. -/
def dataBytes (data : List UnackedSegment) : List UInt8 := (data.map (·.p)).flatten

/-- No segments have no bytes. -/
@[simp] theorem dataBytes_nil : dataBytes [] = [] := rfl

/-- The bytes of the first segment come first. -/
@[simp] theorem dataBytes_cons (seg : UnackedSegment) (data : List UnackedSegment) :
    dataBytes (seg :: data) = seg.p ++ dataBytes data := rfl

/-- The bytes of two lists of segments follow each other. -/
@[simp] theorem dataBytes_append (data data' : List UnackedSegment) :
    dataBytes (data ++ data') = dataBytes data ++ dataBytes data' := by
  simp [dataBytes]

/-- The sum of `data_len` over the segments. -/
def dataLens (data : List UnackedSegment) : Nat := (data.map (·.dataLen.toNat)).sum

/-- No segments have no length. -/
@[simp] theorem dataLens_nil : dataLens [] = 0 := rfl

/-- The lengths of the segments, one by one. -/
@[simp] theorem dataLens_cons (seg : UnackedSegment) (data : List UnackedSegment) :
    dataLens (seg :: data) = seg.dataLen.toNat + dataLens data := by
  simp [dataLens]

/-- The lengths of two lists of segments add up. -/
@[simp] theorem dataLens_append (data data' : List UnackedSegment) :
    dataLens (data ++ data') = dataLens data + dataLens data' := by
  simp [dataLens]

/-- The first `acked` bytes of the stream are acknowledged, and the send side holds the others. -/
structure SendInv (stream : List UInt8) (acked : Nat) (s : Send) : Prop where
  una : s.unacknowledged = s.initial.add (1 + acked : Nat)
  next : s.next = s.unacknowledged.add (dataBytes s.data).length
  le : acked ≤ stream.length
  bytes : dataBytes s.data ++ s.unsent.flatten = stream.drop acked
  unsentLen : s.unsentLen = packetLen s.unsent.flatten
  space : s.currentQueueSpace = s.unsent.flatten.length + dataLens s.data
  fits : ∀ seg ∈ s.data, Fits seg
  sized : Sized s.unsent

/-- The invariant reads the same from both states. -/
structure SameStream (s t : Send) : Prop where
  una : t.unacknowledged = s.unacknowledged
  next : t.next = s.next
  initial : t.initial = s.initial
  bytes : dataBytes t.data = dataBytes s.data
  lens : dataLens t.data = dataLens s.data
  fits : (∀ seg ∈ s.data, Fits seg) → ∀ seg ∈ t.data, Fits seg
  unsent : t.unsent = s.unsent
  unsentLen : t.unsentLen = s.unsentLen
  space : t.currentQueueSpace = s.currentQueueSpace

/-- The fields that the invariant reads. -/
def streamFields (s : Send) : TcpSeq × TcpSeq × TcpSeq × List UnackedSegment × List Packet ×
    BitVec 32 × Nat :=
  (s.unacknowledged, s.next, s.initial, s.data, s.unsent, s.unsentLen, s.currentQueueSpace)

/-- A change of other fields. -/
theorem SameStream.congr {s t : Send} (h : streamFields t = streamFields s) : SameStream s t := by
  simp only [streamFields, Prod.mk.injEq] at h
  obtain ⟨huna, hnext, hinitial, hdata, hunsent, hlen, hspace⟩ := h
  exact ⟨huna, hnext, hinitial, by rw [hdata], by rw [hdata], by rw [hdata]; exact id, hunsent,
    hlen, hspace⟩

/-- A send side has the stream of itself. -/
theorem SameStream.refl (s : Send) : SameStream s s := .congr rfl

/-- The invariant depends on the stream only. -/
theorem SendInv.same {stream : List UInt8} {acked : Nat} {s t : Send} (h : SendInv stream acked s)
    (hst : SameStream s t) : SendInv stream acked t where
  una := by rw [hst.una, hst.initial, h.una]
  next := by rw [hst.next, hst.una, hst.bytes, h.next]
  le := h.le
  bytes := by rw [hst.bytes, hst.unsent, h.bytes]
  unsentLen := by rw [hst.unsentLen, hst.unsent, h.unsentLen]
  space := by rw [hst.space, hst.unsent, hst.lens, h.space]
  fits := hst.fits h.fits
  sized := hst.unsent ▸ h.sized

/-! ### Acknowledged bytes -/

/-- Waking the writer changes its promise only. -/
theorem signalSendAvailable_eq (s : Send) :
    ∃ b, s.signalSendAvailable = { s with sendAvailablePromise := b } := by
  unfold Send.signalSendAvailable
  split
  · exact ⟨false, rfl⟩
  · exact ⟨s.sendAvailablePromise, rfl⟩

/-- `update_cwnd` sets the congestion window only. -/
theorem updateCwnd_fields {s t : Send} {n : BitVec 32} (h : s.updateCwnd n = .ok t) :
    t.unacknowledged = s.unacknowledged ∧ t.currentQueueSpace = s.currentQueueSpace ∧
      t.next = s.next ∧ t.initial = s.initial ∧ t.unsent = s.unsent ∧
      t.unsentLen = s.unsentLen := by
  rw [(sendKeeps_updateCwnd h).2]
  exact ⟨rfl, rfl, rfl, rfl, rfl, rfl⟩

/-- The loop of `data_segment_acked` removes the segments `done` that end at or before the
acknowledgment number, which is `a` bytes ahead. -/
theorem ackSegments_spec {segAck : TcpSeq} (data : List UnackedSegment) :
    ∀ {acked n : BitVec 32} {s t : Send} {a : Nat},
      Send.ackSegments segAck data acked s = .ok (n, t) → (∀ seg ∈ data, Fits seg) →
      segAck = s.unacknowledged.add a → a ≤ 2 ^ 31 →
      ∃ done, data = done ++ t.data ∧ (dataBytes done).length ≤ a ∧
        t.unacknowledged = s.unacknowledged.add (dataBytes done).length ∧
        t.currentQueueSpace = s.currentQueueSpace - dataLens done ∧
        (∀ seg rest, t.data = seg :: rest → a < (dataBytes done).length + seg.p.length) ∧
        t.next = s.next ∧ t.initial = s.initial ∧ t.unsent = s.unsent ∧
        t.unsentLen = s.unsentLen := by
  induction data with
  | nil =>
    intro acked n s t a h _ _ _
    cases h
    exact ⟨[], rfl, Nat.zero_le _, by simp, rfl, by simp, rfl, rfl, rfl, rfl⟩
  | cons seg rest ih =>
    intro acked n s t a h hfits hack ha
    have hseg := hfits seg (by simp)
    have hlt := hseg.lt
    have hpos := hseg.1
    -- One comparison of wrapped numbers compares the length of the segment with `a`.
    have hcmp : (s.unacknowledged.add seg.p.length).le segAck = decide (seg.p.length ≤ a) := by
      rw [hack, add_eq_wrap, add_eq_wrap, le_wrap _ _ _ (by omega) (by omega)]
      exact decide_eq_decide.mpr (by omega)
    simp only [Send.ackSegments, hcmp, decide_eq_true_eq] at h
    split at h
    · rename_i hle
      obtain ⟨u, hu, hrest⟩ := bind_eq_ok.mp h
      obtain ⟨b, hb⟩ := signalSendAvailable_eq
        { u with currentQueueSpace := u.currentQueueSpace - seg.dataLen.toNat }
      rw [hb] at hrest
      obtain ⟨huna, hqueue, hsent⟩ := updateCwnd_fields hu
      have hack' : segAck = u.unacknowledged.add (a - seg.p.length : Nat) := by
        rw [huna, hack, add_add]
        congr 1
        omega
      obtain ⟨done, hdata, hlen, hdone, hspace, hhead, hnext, hinitial, hunsent, hunsentLen⟩ :=
        ih hrest (fun r hr => hfits r (by simp [hr])) hack' (by omega)
      refine ⟨seg :: done, by rw [hdata, List.cons_append], ?_, ?_, ?_, ?_,
        hnext.trans hsent.1, hinitial.trans hsent.2.1, hunsent.trans hsent.2.2.1,
        hunsentLen.trans hsent.2.2.2⟩
      · rw [dataBytes_cons, List.length_append]
        omega
      · show t.unacknowledged = _
        rw [hdone, huna, dataBytes_cons, List.length_append, add_add, Int.natCast_add]
      · show t.currentQueueSpace = _
        rw [hspace, hqueue, dataLens_cons, Nat.sub_sub]
      · intro seg' rest' heq
        have := hhead seg' rest' heq
        rw [dataBytes_cons, List.length_append]
        omega
    · rename_i hgt
      cases h
      refine ⟨[], rfl, Nat.zero_le _, by simp, rfl, ?_, rfl, rfl, rfl, rfl⟩
      intro seg' rest' heq
      cases heq
      simp only [dataBytes_nil, List.length_nil]
      omega

/-- A partial acknowledgment trims the first segment. `a` is what the number is ahead, and the
segments hold at least as many bytes. -/
theorem ackPartial_spec {segAck : TcpSeq} {acked n : BitVec 32} {s t : Send} {a : Nat}
    (h : s.ackPartial segAck acked = .ok (n, t)) (hfits : ∀ seg ∈ s.data, Fits seg)
    (hack : segAck = s.unacknowledged.add a) (ha : a ≤ 2 ^ 31)
    (hhead : ∀ seg rest, s.data = seg :: rest → a < seg.p.length)
    (hle : a ≤ (dataBytes s.data).length) :
    dataBytes t.data = (dataBytes s.data).drop a ∧ t.unacknowledged = segAck ∧
      dataLens t.data = dataLens s.data ∧ (∀ seg ∈ t.data, Fits seg) ∧
      t.currentQueueSpace = s.currentQueueSpace ∧
      t.next = s.next ∧ t.initial = s.initial ∧ t.unsent = s.unsent ∧ t.unsentLen = s.unsentLen := by
  have hlt : s.unacknowledged.lt segAck = decide (0 < a) := by
    have hcmp := lt_wrap s.unacknowledged.raw 0 a (by omega) (by omega)
    rw [← add_eq_wrap, ← add_eq_wrap, add_zero, ← hack] at hcmp
    rw [hcmp]
    exact decide_eq_decide.mpr (by omega)
  simp only [Send.ackPartial, hlt, decide_eq_true_eq] at h
  split at h
  · rename_i hpos
    -- The segments hold the acknowledged bytes, so there is a first one to trim.
    cases hdata : s.data with
    | nil =>
      rw [hdata, dataBytes_nil, List.length_nil] at hle
      omega
    | cons seg rest =>
      have hshort := hhead seg rest hdata
      have hseg := hfits seg (by simp [hdata])
      have hsegLt := hseg.lt
      have hsub : segAck.sub s.unacknowledged = a := by
        have hdiff := sub_wrap s.unacknowledged.raw a 0 (by omega) (by omega)
        rw [← add_eq_wrap, ← add_eq_wrap, add_zero, ← hack] at hdiff
        rw [hdiff, Int.sub_zero]
      have htrim : Send.trimFirst a (seg :: rest) = .ok ({ seg with p := seg.p.drop a } :: rest) := by
        rw [Send.trimFirst, trimFront_ok seg.p a (by omega) (by omega)]
        rfl
      rw [hsub, hdata, htrim, ok_bind] at h
      obtain ⟨u, hu, hret⟩ := bind_eq_ok.mp h
      cases hret
      rw [(sendKeeps_updateCwnd hu).2]
      refine ⟨?_, rfl, by simp, ?_, rfl, rfl, rfl, rfl, rfl⟩
      · rw [dataBytes_cons, dataBytes_cons, List.drop_append_of_le_length (by omega)]
      · intro seg' hseg'
        rcases List.mem_cons.mp hseg' with rfl | hseg'
        · have hlens := hseg.2
          show 0 < (seg.p.drop a).length ∧ (seg.p.drop a).length ≤ seg.dataLen.toNat
          rw [List.length_drop]
          omega
        · exact hfits seg' (by simp [hdata, hseg'])
  · cases h
    have hz : a = 0 := by omega
    subst hz
    exact ⟨rfl, by simp [hack], rfl, hfits, rfl, rfl, rfl, rfl, rfl⟩

/-- `data_segment_acked` keeps the invariant, for every number that passes the test of the handler. What
it removes is what the number is ahead. -/
theorem SendInv.acked {stream : List UInt8} {k : Nat} {s t : Send} {segAck : TcpSeq} {n : BitVec 32}
    (h : SendInv stream k s) (hnew : s.unacknowledged.lt segAck = true)
    (hsent : segAck.le s.next = true) (hacked : s.dataSegmentAcked segAck = .ok (n, t)) :
    ∃ a : Nat, 0 < a ∧ a ≤ 2 ^ 31 ∧ segAck = s.unacknowledged.add a ∧ SendInv stream (k + a) t ∧
      t.initial = s.initial ∧ t.unsent = s.unsent := by
  obtain ⟨a, hpos, ha, rfl⟩ := ahead_of_lt hnew
  rw [h.next] at hsent
  have hflight := le_flight hpos ha hsent
  obtain ⟨⟨m, u⟩, hsegs, hpartial⟩ := bind_eq_ok.mp hacked
  obtain ⟨done, hdata, hlen, huna, hspace, hhead, hnext, hinit, hunsent, hunsentLen⟩ :=
    ackSegments_spec s.data hsegs h.fits rfl ha
  have hfits : ∀ seg ∈ u.data, Fits seg := fun seg hseg => h.fits seg (by simp [hdata, hseg])
  -- The whole segments that `a` reaches past go, and the first of the others loses its front.
  have hsplit : dataBytes s.data = dataBytes done ++ dataBytes u.data := by
    rw [hdata, dataBytes_append]
  have hrest : (dataBytes s.data).length = (dataBytes done).length + (dataBytes u.data).length := by
    rw [hsplit, List.length_append]
  have hack : s.unacknowledged.add a
      = u.unacknowledged.add (a - (dataBytes done).length : Nat) := by
    rw [huna, add_add]
    congr 1
    omega
  obtain ⟨hbytes, huna', hlens, hfits', hspace', hnext', hinit', hunsent', hunsentLen'⟩ :=
    ackPartial_spec hpartial hfits hack (by omega) (fun seg rest heq => by
      have := hhead seg rest heq
      omega) (by omega)
  -- Together the two loops drop exactly `a` bytes of the data in flight.
  have hdrop : dataBytes t.data = (dataBytes s.data).drop a := by
    rw [hbytes, hsplit, List.drop_append, List.drop_eq_nil_of_le hlen, List.nil_append]
  have hstream : (dataBytes s.data).length ≤ (stream.drop k).length := by
    rw [← h.bytes, List.length_append]
    omega
  rw [List.length_drop] at hstream
  have hle := h.le
  refine ⟨a, hpos, ha, rfl, ⟨?_, ?_, by omega, ?_, ?_, ?_, hfits', ?_⟩, hinit'.trans hinit,
    hunsent'.trans hunsent⟩
  · rw [huna', hinit', hinit, h.una, add_add]
    congr 1
    omega
  · rw [hnext', hnext, huna', h.next, hdrop, List.length_drop, add_add]
    congr 1
    omega
  · rw [hdrop, hunsent', hunsent, ← List.drop_drop, ← h.bytes, List.drop_append_of_le_length hflight]
  · rw [hunsentLen', hunsentLen, hunsent', hunsent, h.unsentLen]
  · have hsum : dataLens s.data = dataLens done + dataLens u.data := by rw [hdata, dataLens_append]
    have hspace0 := h.space
    rw [hspace', hspace, hunsent', hunsent, hlens]
    omega
  · rw [hunsent', hunsent]
    exact h.sized

/-! ### Segments -/

/-- The segment carries the bytes of the stream at the position of its sequence number. -/
def Carries (iss : TcpSeq) (stream : List UInt8) (seg : OutSegment) : Prop :=
  seg.payload ≠ [] →
    ∃ k, seg.seq = iss.add (1 + k : Nat) ∧ k ≤ stream.length ∧ seg.payload <+: stream.drop k

/-- A stream that grows at its end still has these bytes. -/
theorem Carries.extend {iss : TcpSeq} {stream : List UInt8} {seg : OutSegment}
    (h : Carries iss stream seg) (more : List UInt8) : Carries iss (stream ++ more) seg := by
  intro hne
  obtain ⟨k, hseq, hle, hpre⟩ := h hne
  refine ⟨k, hseq, by rw [List.length_append]; omega, ?_⟩
  rw [List.drop_append_of_le_length hle]
  exact hpre.trans (List.prefix_append _ _)

/-- `SND.NXT` is the number of the first unsent byte. -/
theorem SendInv.next_eq {stream : List UInt8} {k : Nat} {s : Send} (h : SendInv stream k s) :
    s.next = s.initial.add (1 + (k + (dataBytes s.data).length) : Nat) := by
  rw [h.next, h.una, add_add]
  congr 1
  omega

/-- A segment without text leaves the send side. -/
theorem emitSend_of_empty {p : Packet} {s : Send} (h : Tcb.segLen p = 0) :
    Tcb.emitSend false p s = s := by
  have hnext : s.next.add (BitVec.toNat (0 : BitVec 16)) = s.next := add_zero s.next
  simp only [Tcb.emitSend, Bool.false_eq_true, if_false, h, if_true, hnext]

/-- A segment with text advances `SND.NXT`. -/
theorem emitSend_of_text {p : Packet} {s : Send} (h : Tcb.segLen p ≠ 0) :
    Tcb.emitSend false p s =
      { s with
        next := s.next.add (Tcb.segLen p).toNat
        data := s.data ++ [⟨p, Tcb.segLen p, 0⟩] } := by
  simp only [Tcb.emitSend, Bool.false_eq_true, if_false, h]

/-- A first transmission moves its payload from the unsent packets to the segments in flight. -/
theorem SendInv.transmit {stream : List UInt8} {k : Nat} {s t : Send} {tso : Bool} {p : Packet}
    (h : SendInv stream k s) (htransmit : s.getTransmitPacket tso = (p, t)) :
    SendInv stream k (Tcb.emitSend false p t) ∧
      k + (dataBytes s.data).length ≤ stream.length ∧
      p <+: stream.drop (k + (dataBytes s.data).length) := by
  obtain ⟨hbytes, hsized, hshort, hunsentLen, hsame⟩ := getTransmitPacket_spec htransmit h.sized
  have hlen := toNat_segLen hshort
  -- In flight, then the new payload, then the rest: together what follows the first `k` bytes.
  have hstream : dataBytes s.data ++ (p ++ t.unsent.flatten) = stream.drop k := by
    rw [hbytes, h.bytes]
  have htotal := congrArg List.length hstream
  simp only [List.length_append, List.length_drop] at htotal
  have hle := h.le
  have hunsent : t.unsentLen = packetLen t.unsent.flatten := by
    rw [hunsentLen, h.unsentLen, ← hbytes, packetLen_append]
    bv_omega
  have hspace : s.currentQueueSpace = t.unsent.flatten.length + (p.length + dataLens s.data) := by
    rw [h.space, ← hbytes, List.length_append]
    omega
  refine ⟨?_, by omega, ?_⟩
  · rw [hsame]
    by_cases hzero : Tcb.segLen p = 0
    · -- Nothing was taken: an acknowledgment or another segment without payload.
      have hempty : p.length = 0 := by
        rw [← hlen, hzero]
        rfl
      have hnil : p = [] := List.eq_nil_of_length_eq_zero hempty
      subst hnil
      rw [emitSend_of_empty hzero]
      exact ⟨h.una, h.next, h.le, hstream, hunsent, by simpa using hspace, h.fits, hsized⟩
    · have hpos : 0 < p.length := by
        by_contra hnot
        refine hzero (BitVec.eq_of_toNat_eq ?_)
        rw [hlen]
        show p.length = 0
        omega
      rw [emitSend_of_text hzero]
      refine ⟨h.una, ?_, h.le, ?_, hunsent, ?_, ?_, hsized⟩
      · show s.next.add _ = s.unacknowledged.add _
        rw [h.next, add_add, hlen, dataBytes_append, List.length_append]
        simp
      · show dataBytes (s.data ++ [⟨p, Tcb.segLen p, 0⟩]) ++ t.unsent.flatten = stream.drop k
        rw [dataBytes_append, List.append_assoc, ← hstream]
        simp
      · show s.currentQueueSpace
          = t.unsent.flatten.length + dataLens (s.data ++ [⟨p, Tcb.segLen p, 0⟩])
        rw [hspace, dataLens_append]
        simp only [dataLens_cons, dataLens_nil, hlen]
        omega
      · intro seg hseg
        rcases List.mem_append.mp hseg with hseg | hseg
        · exact h.fits seg hseg
        · rw [List.mem_singleton.mp hseg]
          exact ⟨hpos, Nat.le_of_eq hlen.symm⟩
  · rw [← List.drop_drop, ← hstream, List.drop_left]
    exact List.prefix_append _ _

/-- The send side follows the stream with at most `n` unsent bytes, and every segment in `_packetq`
carries bytes of the stream. -/
structure TcbInv (iss : TcpSeq) (stream : List UInt8) (n : Nat) (s : Tcb) : Prop where
  initial : s.snd.initial = iss
  snd : ∃ k, SendInv stream k s.snd
  queued : ∀ seg ∈ s.packetq, Carries iss stream seg
  unsent : s.snd.unsent.flatten.length ≤ n

section
variable {iss : TcpSeq} {stream : List UInt8} {n : Nat} {s t : Tcb} {tso : Bool}

/-- The invariant depends on the stream and the packet queue only. -/
theorem TcbInv.same (h : TcbInv iss stream n s) (hsnd : SameStream s.snd t.snd)
    (hq : t.packetq = s.packetq) : TcbInv iss stream n t where
  initial := hsnd.initial.trans h.initial
  snd := h.snd.imp fun _ hk => hk.same hsnd
  queued := hq ▸ h.queued
  unsent := hsnd.unsent ▸ h.unsent

/-- Asking for output keeps the invariant. -/
theorem TcbInv.output (h : TcbInv iss stream n s) : TcbInv iss stream n s.output :=
  h.same (snd_output s ▸ .refl _) (packetq_output s)

/-- `can_send` keeps the invariant. -/
theorem TcbInv.canSend (h : TcbInv iss stream n s) : TcbInv iss stream n s.canSend.2 := by
  obtain ⟨x, hx⟩ := canSend_eq s.snd
  have hsnd : s.canSend.2.snd = { s.snd with limitedTransfer := x } := hx
  refine h.same ?_ rfl
  rw [hsnd]
  exact .congr rfl

/-- Every segment that `output_one` queues carries the bytes at its position, a first transmission
and a retransmission alike. -/
theorem TcbInv.outputOne {r : Bool} (h : TcbInv iss stream n s) (hsyn : s.synNeedsOn = false)
    (hout : s.outputOne tso r = .ok t) : TcbInv iss stream n t := by
  rcases outputOne_ok hout with ⟨-, rfl⟩ | ⟨-, p, snd, htake, hemit⟩
  · exact h
  obtain ⟨k, hk⟩ := h.snd
  obtain ⟨delayed, armed, -, rfl⟩ := emit_ok hemit
  rcases takePayload_ok htake with ⟨rfl, rfl, seg, rest, hdata, rfl⟩ | ⟨rfl, htransmit⟩
  · refine ⟨h.initial, ⟨k, hk⟩, fun out hout => ?_, h.unsent⟩
    rcases List.mem_append.mp hout with hout | hout
    · exact h.queued out hout
    · -- The first segment in flight starts at `SND.UNA`.
      rw [List.mem_singleton.mp hout]
      intro _
      refine ⟨k, by rw [← h.initial]; exact hk.una, hk.le, ?_⟩
      show seg.p <+: stream.drop k
      rw [← hk.bytes, hdata, dataBytes_cons, List.append_assoc]
      exact List.prefix_append _ _
  · obtain ⟨hinv, hle, hpre⟩ := hk.transmit htransmit
    have hsame := (getTransmitPacket_spec htransmit hk.sized).2.2.2.2
    have hinit : snd.initial = iss := by rw [hsame]; exact h.initial
    have hnext : snd.next = s.snd.next := by rw [hsame]
    have hshorter : snd.unsent.flatten.length ≤ n := by
      have hcut := congrArg List.length (getTransmitPacket_spec htransmit hk.sized).1
      have hle := h.unsent
      rw [List.length_append] at hcut
      omega
    refine ⟨hinit, ⟨k, hinv⟩, fun out hout => ?_, hshorter⟩
    rcases List.mem_append.mp hout with hout | hout
    · exact h.queued out hout
    · rw [List.mem_singleton.mp hout]
      intro _
      refine ⟨k + (dataBytes s.snd.data).length, ?_, hle, hpre⟩
      have hseq : Tcb.emitSeq false { s with snd := snd } = snd.next := by
        show (if s.synNeedsOn then snd.initial else snd.next) = snd.next
        rw [hsyn]
        rfl
      show Tcb.emitSeq false { s with snd := snd } = _
      rw [hseq, hnext, hk.next_eq, h.initial]

/-- The first segment in flight is counted as transmitted once more. -/
theorem sameStream_countTransmit {s : Send} {seg : UnackedSegment} {rest : List UnackedSegment}
    (hdata : s.data = seg :: rest) :
    SameStream s { s with data := { seg with nrTransmits := seg.nrTransmits + 1 } :: rest } := by
  refine ⟨rfl, rfl, rfl, ?_, ?_, ?_, rfl, rfl, rfl⟩
  · simp [hdata]
  · simp [hdata]
  · intro hfits seg' hseg'
    rcases List.mem_cons.mp hseg' with rfl | hseg'
    · exact hfits seg (by simp [hdata])
    · exact hfits seg' (by simp [hdata, hseg'])

/-- A fast retransmission keeps the invariant. -/
theorem TcbInv.fastRetransmit (h : TcbInv iss stream n s) (hsyn : s.synNeedsOn = false)
    (hfast : s.fastRetransmit tso = .ok t) : TcbInv iss stream n t := by
  unfold Tcb.fastRetransmit at hfast
  split at hfast
  · cases hfast
    exact h
  · rename_i seg rest hdata
    obtain ⟨u, hu, hret⟩ := bind_eq_ok.mp hfast
    cases hret
    have hcount := h.same (t := { s with snd := { s.snd with
      data := { seg with nrTransmits := seg.nrTransmits + 1 } :: rest } })
      (sameStream_countTransmit hdata) rfl
    exact (hcount.outputOne hsyn hu).output

/-! ### Events -/

/-- Setting the retransmission timer keeps the invariant. -/
theorem TcbInv.setRetransmitTimer (h : TcbInv iss stream n s) :
    TcbInv iss stream n s.setRetransmitTimer := by
  unfold Tcb.setRetransmitTimer
  split
  · refine h.same ?_ rfl
    show SameStream s.snd s.snd.signalAllDataAcked
    unfold Send.signalAllDataAcked
    split
    · exact .congr rfl
    · exact .refl _
  · exact h.same (.refl _) rfl

/-- Recovering from a loss keeps the invariant. -/
theorem TcbInv.recoverFromAck {segAck : TcpSeq} {acked : BitVec 32} (h : TcbInv iss stream n s)
    (hsyn : s.synNeedsOn = false) (hrec : s.recoverFromAck tso segAck acked = .ok t) :
    TcbInv iss stream n t := by
  simp only [Tcb.recoverFromAck] at hrec
  split at hrec
  · cases hrec
    exact TcbInv.setRetransmitTimer (h.same (.congr rfl) rfl)
  · split at hrec
    · cases hrec
      exact TcbInv.setRetransmitTimer (h.same (.congr rfl) rfl)
    · obtain ⟨u, hu, hret⟩ := bind_eq_ok.mp hrec
      cases hret
      exact (h.fastRetransmit hsyn hu).same (.congr rfl) rfl

/-- New data is acknowledged. -/
theorem TcbInv.ackNewData {th : TcbHdr} {segSeq : TcpSeq} (h : TcbInv iss stream n s)
    (hsyn : s.synNeedsOn = false) (hnew : s.snd.unacknowledged.lt th.ack = true)
    (hsent : th.ack.le s.snd.next = true) (hack : s.ackNewData tso th segSeq = .ok t) :
    TcbInv iss stream n t := by
  obtain ⟨⟨acked, snd⟩, hacked, hrest⟩ := bind_eq_ok.mp hack
  obtain ⟨k, hk⟩ := h.snd
  obtain ⟨a, -, -, -, hk', hinit, hunsent⟩ := hk.acked hnew hsent hacked
  have hbase : TcbInv iss stream n { s with snd := snd } :=
    ⟨hinit.trans h.initial, ⟨k + a, hk'⟩, h.queued, by rw [hunsent]; exact h.unsent⟩
  refine TcbInv.recoverFromAck ?_ ?_ hrest
  · split
    · exact hbase.same (.congr rfl) rfl
    · exact hbase
  · split
    · exact hsyn
    · exact hsyn

/-- A duplicate acknowledgment keeps the invariant. -/
theorem TcbInv.duplicateAck {segAck : TcpSeq} {d : Bool} (h : TcbInv iss stream n s)
    (hsyn : s.synNeedsOn = false) (hdup : s.duplicateAck tso segAck = .ok (t, d)) :
    TcbInv iss stream n t := by
  have hcount : TcbInv iss stream n { s with snd := { s.snd with dupacks := s.snd.dupacks + 1 } } :=
    h.same (.congr rfl) rfl
  simp only [Tcb.duplicateAck] at hdup
  split at hdup
  · cases hdup
    exact hcount
  · split at hdup
    · obtain ⟨u, hu, hret⟩ := bind_eq_ok.mp hdup
      cases hret
      refine TcbInv.same (s := u) ?_ (.congr rfl) rfl
      split at hu
      · exact TcbInv.fastRetransmit (by exact h.same (.congr rfl) rfl) (by exact hsyn) hu
      · cases hu
        exact hcount
    · split at hdup
      · cases hdup
        exact h.same (.congr rfl) rfl
      · cases hdup
        exact hcount

/-- An acknowledgment in ESTABLISHED keeps the invariant. -/
theorem TcbInv.ackEstablished {th : TcbHdr} {segSeq : TcpSeq} {p : Packet} {flow : Flow}
    (h : TcbInv iss stream n s) (hsyn : s.synNeedsOn = false)
    (hack : s.ackEstablished tso th segSeq p = .ok flow) : TcbInv iss stream n (Flow.tcb flow) := by
  unfold Tcb.ackEstablished at hack
  split at hack
  · rename_i hnew
    obtain ⟨hnew, hsent⟩ := Bool.and_eq_true _ _ |>.mp hnew
    obtain ⟨u, hu, hret⟩ := bind_eq_ok.mp hack
    cases hret
    exact h.ackNewData hsyn hnew hsent hu
  · split at hack
    · obtain ⟨⟨u, d⟩, hu, hret⟩ := bind_eq_ok.mp hack
      cases hret
      exact h.duplicateAck hsyn hu
    · split at hack
      · cases hack
        exact h.output
      · split at hack
        · cases hack
          exact h.same (.congr rfl) rfl
        · cases hack
          exact h

/-- The output at the end of the input keeps the invariant. -/
theorem TcbInv.finishInput (h : TcbInv iss stream n s) (doOutput doOutputData : Bool) :
    TcbInv iss stream n (s.finishInput doOutput doOutputData) := by
  have hclear : ∀ u, TcbInv iss stream n u → TcbInv iss stream n u.clearDelayedAck.output :=
    fun u hu => (hu.same (t := u.clearDelayedAck) (.refl _) rfl).output
  unfold Tcb.finishInput
  split
  · exact hclear s h
  · split
    · dsimp only
      split
      · exact hclear _ h.canSend
      · exact h.canSend
    · exact h

end

end Netstar.Proofs.Net
