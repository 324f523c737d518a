import Netstar.Proofs.Net.TcbAcked
import Netstar.Spec.Net.Cwnd

/-!
# `Netstar.Proofs.Net.TcbCwnd`: the 32-bit congestion window and the integers

`Netstar.Spec.Net.Cwnd` runs the congestion window over the integers beside the connection. The two
agree while no change leaves the range of a `uint32_t`, and `update_cwnd` does not divide by zero while
the window is not zero. A change can break this in four ways.

* The peer offers a segment size of zero. Then the initial window is zero, and so is the window behind
  a timeout.
* A partial acknowledgment in the fast recovery deflates the window by all acknowledged bytes. The
  window need not be that large, because nothing bounds the bytes in flight by it.
* The fast recovery ends while `ssthresh` is zero, which is the window of a SYN that closed it.
* A change exceeds `2^32 - 1`.

`CwndFits` says for each event that it does none of these. Two parts of an event are proved apart: what
an acknowledgment does to the window, and that everything else leaves it alone.
-/

set_option autoImplicit false

namespace Netstar.Proofs.Net

open Netstar.Lib
open Netstar.Spec.Net

/-- The fault is not the division in `update_cwnd`. -/
def NoDivision (f : TcbFault) : Prop := f ≠ .divideByZero

/-! ### Growth -/

/-- An acknowledged segment does not shrink the window. -/
theorem le_growOne (ssthresh smss n : Nat) (c : Int) : c ≤ growOne ssthresh smss c n := by
  unfold growOne
  split
  · omega
  · have := Int.le_max_left 1 ((smss : Int) * smss / c)
    omega

/-- Acknowledged segments do not shrink the window. -/
theorem le_grow {ssthresh smss : Nat} (lens : List Nat) (c : Int) : c ≤ grow ssthresh smss c lens := by
  induction lens generalizing c with
  | nil => exact Int.le_refl c
  | cons n rest ih =>
    show c ≤ grow ssthresh smss (growOne ssthresh smss c n) rest
    exact Int.le_trans (le_growOne ssthresh smss n c) (ih _)

/-- The larger of two words is the larger of their values. -/
theorem toNat_umax {w : Nat} (a b : BitVec w) : (umax a b).toNat = max a.toNat b.toNat := by
  unfold umax
  split
  · rename_i h
    have := BitVec.lt_def.mp h
    omega
  · rename_i h
    have := mt BitVec.lt_def.mpr h
    omega

/-- The segment size keeps its value in 32 bits. -/
theorem toNat_smss (m : BitVec 16) : (m.zeroExtend 32).toNat = m.toNat := by
  have := m.isLt
  show (m.setWidth 32).toNat = _
  rw [BitVec.toNat_setWidth]
  omega

/-- The square of the segment size fits 32 bits. -/
theorem smss_mul_lt (m : BitVec 16) : m.toNat * m.toNat < 2 ^ 32 := by
  have h := m.isLt
  calc m.toNat * m.toNat ≤ 65535 * 65535 := Nat.mul_le_mul (by omega) (by omega)
    _ < 2 ^ 32 := by decide

/-- `update_cwnd` divides only by a window that is not below `ssthresh`. While the result fits in 32
bits, it is the integer one. -/
theorem updateCwnd_exact (s : Send) (n : BitVec 32) (hz : s.cwnd ≠ 0 ∨ s.ssthresh ≠ 0) :
    Sat NoDivision (fun t => ∃ c, t = { s with cwnd := c } ∧
      (growOne s.ssthresh.toNat s.mss.toNat s.cwnd.toNat n.toNat < 2 ^ 32 →
        (c.toNat : Int) = growOne s.ssthresh.toNat s.mss.toNat s.cwnd.toNat n.toNat))
      (s.updateCwnd n) := by
  simp only [Send.updateCwnd]
  split
  · rename_i hslow
    refine ⟨_, rfl, fun hfits => ?_⟩
    -- Slow start: at most one segment size is added.
    have hlt := BitVec.lt_def.mp hslow
    rw [growOne, if_pos (by omega)] at hfits ⊢
    show ((s.cwnd + umin n (s.mss.zeroExtend 32)).toNat : Int) = _
    rw [BitVec.toNat_add, toNat_umin, toNat_smss, Nat.mod_eq_of_lt (by omega)]
    omega
  · rename_i hfast
    have hge : ¬s.cwnd.toNat < s.ssthresh.toNat := mt BitVec.lt_def.mpr hfast
    -- Congestion avoidance divides by the window.
    have hpos : s.cwnd ≠ 0 := by
      rcases hz with hz | hz
      · exact hz
      · intro hzero
        rw [hzero] at hge
        exact hz (BitVec.eq_of_toNat_eq (by simpa using hge))
    rw [if_neg hpos]
    refine ⟨_, rfl, fun hfits => ?_⟩
    -- The square of a 16-bit segment size does not wrap.
    have hmul : (s.mss.zeroExtend 32 * s.mss.zeroExtend 32).toNat = s.mss.toNat * s.mss.toNat := by
      rw [BitVec.toNat_mul, toNat_smss, Nat.mod_eq_of_lt (smss_mul_lt s.mss)]
    have hadd : (umax 1 (s.mss.zeroExtend 32 * s.mss.zeroExtend 32 / s.cwnd)).toNat
        = max 1 (s.mss.toNat * s.mss.toNat / s.cwnd.toNat) := by
      rw [toNat_umax, BitVec.toNat_udiv, hmul]
      rfl
    have hcast : max (1 : Int) ((s.mss.toNat : Int) * s.mss.toNat / s.cwnd.toNat)
        = (max 1 (s.mss.toNat * s.mss.toNat / s.cwnd.toNat) : Nat) := by
      rw [← Int.natCast_mul, ← Int.natCast_ediv]
      omega
    rw [growOne, if_neg (by omega), hcast] at hfits ⊢
    show ((s.cwnd + umax 1 _).toNat : Int) = _
    rw [BitVec.toNat_add, hadd, Nat.mod_eq_of_lt (by omega)]
    omega

/-! ### `data_segment_acked` -/

/-- What `data_segment_acked` does, beside the numbers of the stream. -/
structure Grows (s t : Send) (segAck : TcpSeq) (lens : List Nat) (data : List UnackedSegment) :
    Prop where
  data : t.data = remaining segAck s.unacknowledged data
  mss : t.mss = s.mss
  ssthresh : t.ssthresh = s.ssthresh
  dupacks : t.dupacks = s.dupacks
  recover : t.recover = s.recover
  cwnd : grow s.ssthresh.toNat s.mss.toNat s.cwnd.toNat lens < 2 ^ 32 →
    (t.cwnd.toNat : Int) = grow s.ssthresh.toNat s.mss.toNat s.cwnd.toNat lens

/-- A part of the first segment is acknowledged, or nothing. -/
theorem ackPartial_grows (segAck : TcpSeq) (acked : BitVec 32) (s : Send) (data : List UnackedSegment)
    {lens : List Nat} (hz : s.cwnd ≠ 0 ∨ s.ssthresh ≠ 0)
    (hlens : lens = if s.unacknowledged.lt segAck then [(segAck.raw - s.unacknowledged.raw).toNat]
      else [])
    (hdata : s.unacknowledged.lt segAck = true → ∀ d,
      Send.trimFirst (segAck.sub s.unacknowledged) s.data = .ok d →
        d = remaining segAck s.unacknowledged data)
    (hstay : s.unacknowledged.lt segAck = false → s.data = remaining segAck s.unacknowledged data) :
    Sat NoDivision
      (fun x => x.1 = acked + BitVec.ofNat 32 lens.sum ∧ Grows s x.2 segAck lens data)
      (s.ackPartial segAck acked) := by
  simp only [Send.ackPartial]
  split
  · rename_i hnew
    rw [if_pos hnew] at hlens
    -- The number of bytes is below 2^31, so it is the same as a signed and as an unsigned number.
    have hbytes : BitVec.ofInt 32 (segAck.sub s.unacknowledged)
        = segAck.raw - s.unacknowledged.raw := BitVec.ofInt_toInt
    refine Sat.bind_result (P := fun _ => True) ?_ fun d hd => ?_
    · cases s.data with
      | nil => exact trivial
      | cons seg rest =>
        exact (Sat.mapError (fun _ h => by cases h) _).bind fun _ _ => trivial
    · rw [hbytes]
      have hupdate := updateCwnd_exact { s with data := d, unacknowledged := segAck }
        (segAck.raw - s.unacknowledged.raw) hz
      refine hupdate.bind fun t ht => ?_
      obtain ⟨c, rfl, hcwnd⟩ := ht
      rw [hlens]
      refine ⟨?_, hdata hnew d hd, rfl, rfl, rfl, rfl, hcwnd⟩
      show acked + (segAck.raw - s.unacknowledged.raw) = _
      rw [List.sum_cons, List.sum_nil, Nat.add_zero, BitVec.ofNat_toNat, BitVec.setWidth_eq]
  · rename_i hold
    rw [if_neg hold] at hlens
    rw [hlens]
    refine ⟨?_, hstay (by simpa using hold), rfl, rfl, rfl, rfl, fun _ => rfl⟩
    simp

/-- `data_segment_acked` grows the window once for each segment and once for the rest. -/
theorem ackSegments_grows (segAck : TcpSeq) (data : List UnackedSegment) (acked : BitVec 32) (s : Send)
    (hz : s.cwnd ≠ 0 ∧ grow s.ssthresh.toNat s.mss.toNat s.cwnd.toNat
        (ackedLens segAck s.unacknowledged data) < 2 ^ 32 ∨ s.ssthresh ≠ 0) :
    Sat NoDivision
      (fun x => x.1 = acked + BitVec.ofNat 32 (ackedLens segAck s.unacknowledged data).sum ∧
        Grows s x.2 segAck (ackedLens segAck s.unacknowledged data) data)
      (Send.ackSegments segAck data acked s >>= fun x => x.2.ackPartial segAck x.1) := by
  induction data generalizing acked s with
  | nil =>
    show Sat NoDivision _ (Send.ackPartial segAck acked { s with data := [] })
    have hlast := ackPartial_grows segAck acked { s with data := [] } [] (hz.imp_left And.left) rfl (fun _ d hd => by cases hd; rfl) (fun _ => rfl)
    refine hlast.mono fun x hgrows => ?_
    obtain ⟨hx, h⟩ := hgrows
    exact ⟨hx, h.data, h.mss, h.ssthresh, h.dupacks, h.recover, h.cwnd⟩
  | cons seg rest ih =>
    simp only [Send.ackSegments, ackedLens] at hz ⊢
    split
    · rename_i hle
      rw [if_pos hle] at hz
      rw [bind_assoc]
      have hupdate := updateCwnd_exact
        { s with unacknowledged := s.unacknowledged.add seg.p.length } (packetLen seg.p)
        (hz.imp_left And.left)
      refine hupdate.bind fun t ht => ?_
      obtain ⟨c, rfl, hcwnd⟩ := ht
      -- The first step fits in 32 bits when all of them do.
      have hfirst : grow s.ssthresh.toNat s.mss.toNat s.cwnd.toNat ((packetLen seg.p).toNat ::
          ackedLens segAck (s.unacknowledged.add seg.p.length) rest) < 2 ^ 32 →
          (c.toNat : Int)
            = growOne s.ssthresh.toNat s.mss.toNat s.cwnd.toNat (packetLen seg.p).toNat :=
        fun hfits => hcwnd (Int.lt_of_le_of_lt (le_grow _ _) hfits)
      obtain ⟨b, hb⟩ := signalSendAvailable_eq { s with
        unacknowledged := s.unacknowledged.add seg.p.length
        cwnd := c
        currentQueueSpace := s.currentQueueSpace - seg.dataLen.toNat }
      show Sat NoDivision _ (Send.ackSegments segAck rest (acked + packetLen seg.p)
        (Send.signalSendAvailable { s with
          unacknowledged := s.unacknowledged.add seg.p.length
          cwnd := c
          currentQueueSpace := s.currentQueueSpace - seg.dataLen.toNat }) >>= _)
      rw [hb]
      have hrest := ih (acked + packetLen seg.p) { s with
        unacknowledged := s.unacknowledged.add seg.p.length
        cwnd := c
        currentQueueSpace := s.currentQueueSpace - seg.dataLen.toNat
        sendAvailablePromise := b } (by
          rcases hz with ⟨hpos, hfits⟩ | hz
          · left
            have hc := hfirst hfits
            refine ⟨fun hzero => ?_, ?_⟩
            · have hgrow := le_growOne s.ssthresh.toNat s.mss.toNat (packetLen seg.p).toNat s.cwnd.toNat
              rw [← hc, show c = 0 from hzero] at hgrow
              exact hpos (BitVec.eq_of_toNat_eq (by simpa using hgrow))
            · show grow _ _ c.toNat _ < _
              rw [hc]
              exact hfits
          · exact .inr hz)
      refine hrest.mono fun x hgrows => ?_
      obtain ⟨hx, h⟩ := hgrows
      refine ⟨?_, ?_, h.mss, h.ssthresh, h.dupacks, h.recover, ?_⟩
      · rw [hx, List.sum_cons, BitVec.ofNat_add, BitVec.ofNat_toNat, BitVec.setWidth_eq,
          BitVec.add_assoc]
      · rw [h.data, remaining, if_pos hle]
      · intro hfits
        have hlast := h.cwnd
        dsimp only at hlast
        rw [hfirst hfits] at hlast
        exact hlast hfits
    · rename_i hgt
      rw [if_neg hgt] at hz
      have hlast := ackPartial_grows segAck acked { s with data := seg :: rest } (seg :: rest)
        (hz.imp_left And.left) rfl
        (fun hnew d hd => by
          obtain ⟨q, hq, hret⟩ := bind_eq_ok.mp hd
          cases hret
          have hq := mapError_eq_ok.mp hq
          rw [trimFront] at hq
          split at hq
          · rename_i hrange
            cases hq
            have hnat : (segAck.sub s.unacknowledged).toNat
                = (segAck.raw - s.unacknowledged.raw).toNat := by
              have hpos := hrange.1
              rw [TcpSeq.sub, BitVec.toInt_eq_toNat_cond] at hpos ⊢
              split at hpos
              · rename_i hsmall
                rw [if_pos hsmall]
                rfl
              · omega
            rw [remaining, if_neg hgt, if_pos hnew, ← hnat]
          · cases hq)
        (fun hold => by
          rw [remaining, if_neg hgt, if_neg (by simpa using hold)])
      refine hlast.mono fun x hgrows => ?_
      obtain ⟨hx, h⟩ := hgrows
      exact ⟨hx, h.data, h.mss, h.ssthresh, h.dupacks, h.recover, h.cwnd⟩

/-! ### What leaves the window alone -/

/-- The block does not divide, and it keeps the congestion window of `s`. -/
def KeepsCwnd (s : Tcb) (x : Except TcbFault Tcb) : Prop :=
  Sat NoDivision (fun t => t.snd.cwnd = s.snd.cwnd) x

section
variable {s t u : Tcb} {tso : Bool}

/-- What keeps the window of one connection keeps that of any with the same window. -/
theorem KeepsCwnd.after {x : Except TcbFault Tcb} (h : KeepsCwnd t x) (hcwnd : t.snd.cwnd = s.snd.cwnd) :
    KeepsCwnd s x := h.mono fun _ heq => heq.trans hcwnd

/-- The error of the merger is not the division. -/
theorem noDivision_merger (e : MergeError) : NoDivision (.merger e) := fun h => nomatch h

/-- A transmission changes neither the congestion window nor `ssthresh`. -/
theorem outputOne_keeps (s : Tcb) (tso r : Bool) :
    Sat NoDivision (fun t => t.snd.cwnd = s.snd.cwnd ∧ t.snd.ssthresh = s.snd.ssthresh)
      (s.outputOne tso r) := by
  unfold Tcb.outputOne
  split
  · exact ⟨rfl, rfl⟩
  · refine Sat.bind (P := fun x => x.2.cwnd = s.snd.cwnd ∧ x.2.ssthresh = s.snd.ssthresh) ?_
      fun ⟨p, snd⟩ hsnd => ?_
    · -- A retransmission takes the payload from the data in flight, a transmission from the unsent
      -- packets.
      cases r with
      | true =>
        unfold Tcb.takePayload
        rw [if_pos rfl]
        split
        · exact fun h => nomatch h
        · exact ⟨rfl, rfl⟩
      | false =>
        obtain ⟨n, hn⟩ := getTransmitPacket_eq tso s.snd
        show (s.snd.getTransmitPacket tso).2.cwnd = _ ∧ (s.snd.getTransmitPacket tso).2.ssthresh = _
        rw [hn]
        exact ⟨rfl, rfl⟩
    · show Sat NoDivision _ (Tcb.emit r p { s with snd := snd })
      refine Sat.of_cases (fun f hf => ?_) (fun t ht => ?_)
      · rw [(emit_error.mp hf).1]
        exact fun h => nomatch h
      · obtain ⟨delayed, armed, -, rfl⟩ := emit_ok ht
        show (Tcb.emitSend r p snd).cwnd = _ ∧ (Tcb.emitSend r p snd).ssthresh = _
        cases r
        · exact hsnd
        · exact hsnd

/-- Sending one segment keeps the window. -/
theorem keepsCwnd_outputOne (s : Tcb) (tso r : Bool) : KeepsCwnd s (s.outputOne tso r) :=
  (outputOne_keeps s tso r).mono fun _ h => h.1

/-- A fast retransmission keeps the window and the threshold. -/
theorem fastRetransmit_keeps (s : Tcb) (tso : Bool) :
    Sat NoDivision (fun t => t.snd.cwnd = s.snd.cwnd ∧ t.snd.ssthresh = s.snd.ssthresh)
      (s.fastRetransmit tso) := by
  unfold Tcb.fastRetransmit
  split
  · exact ⟨rfl, rfl⟩
  · refine (outputOne_keeps _ tso true).bind fun t ht => ?_
    show t.output.snd.cwnd = _ ∧ t.output.snd.ssthresh = _
    rw [snd_output]
    exact ht

/-- `can_send` keeps the window. -/
theorem cwnd_canSend (s : Tcb) : s.canSend.2.snd.cwnd = s.snd.cwnd := by
  obtain ⟨n, hn⟩ := canSend_eq s.snd
  show s.snd.canSend.2.cwnd = _
  rw [hn]

/-- The output at the end of the input keeps the window. -/
theorem cwnd_finishInput (doOutput doOutputData : Bool) (s : Tcb) :
    (s.finishInput doOutput doOutputData).snd.cwnd = s.snd.cwnd := by
  unfold Tcb.finishInput
  split
  · rw [snd_output]
    rfl
  · split
    · dsimp only
      split
      · rw [snd_output]
        exact cwnd_canSend s
      · exact cwnd_canSend s
    · rfl

/-- Taking a FIN keeps the window. -/
theorem cwnd_takeFin (finSeq : TcpSeq) (doOutput doOutputData : Bool) (s : Tcb) :
    (s.takeFin finSeq doOutput doOutputData).snd.cwnd = s.snd.cwnd := by
  have hfin : (finReceived finSeq s).snd.cwnd = s.snd.cwnd := by
    rw [finReceived, snd_output]
    rfl
  unfold Tcb.takeFin
  split
  · rfl
  · split
    · dsimp only
      split
      · exact (cwnd_finishInput _ _ _).trans hfin
      · split
        · exact (cwnd_finishInput _ _ _).trans hfin
        · split
          · exact hfin
          · exact (cwnd_finishInput _ _ _).trans hfin
    · exact cwnd_finishInput _ _ _

/-- Taking the text of a segment keeps the window. -/
theorem cwnd_takeText (p : Packet) (s : Tcb) :
    Sat NoDivision (fun x => x.2.snd.cwnd = s.snd.cwnd) (s.takeText p) := by
  unfold Tcb.takeText
  split
  · refine (Sat.mapError noDivision_merger _).bind fun ⟨merged, rcv⟩ _ => ?_
    cases merged with
    | true => exact rfl
    | false =>
      show (Tcb.shouldSendAck _ _).2.snd.cwnd = _
      rw [(shouldSendAck_send _ _).1]
      rfl
  · exact rfl

/-- The text and the FIN of a segment keep the window. -/
theorem keepsCwnd_textAndFin (th : TcbHdr) (segSeq : TcpSeq) (p : Packet) (d : Bool) (s : Tcb) :
    KeepsCwnd s (s.textAndFin th segSeq p d) := by
  unfold Tcb.textAndFin
  split
  · exact rfl
  · refine Sat.bind (P := fun x => x.2.snd.cwnd = s.snd.cwnd) ?_ fun ⟨doOutput, t⟩ ht => ?_
    · split
      · exact cwnd_takeText p s
      · exact rfl
    · show (if th.fFin then _ else _ : Tcb).snd.cwnd = _
      split
      · exact (cwnd_takeFin _ _ _ _).trans ht
      · exact (cwnd_finishInput _ _ _).trans ht

/-- Setting the retransmission timer keeps the window. -/
theorem cwnd_setRetransmitTimer (s : Tcb) : s.setRetransmitTimer.snd.cwnd = s.snd.cwnd := by
  unfold Tcb.setRetransmitTimer
  split
  · show s.snd.signalAllDataAcked.cwnd = _
    unfold Send.signalAllDataAcked
    split
    · rfl
    · rfl
  · rfl

/-! ### Acknowledgments -/

/-- The window behind an acknowledgment, as the source computes it. -/
def recoveredCwnd (s : Send) (segAck : TcpSeq) (acked : BitVec 32) : BitVec 32 :=
  let smss : BitVec 32 := s.mss.zeroExtend 32
  if s.dupacks < 3 then s.cwnd
  else if s.recover.lt segAck then umin s.ssthresh (umax s.flightSize smss + smss)
  else if smss ≤ acked then s.cwnd - acked + smss else s.cwnd - acked

/-- The window behind an acknowledgment in recovery. -/
theorem recoverFromAck_cwnd (segAck : TcpSeq) (acked : BitVec 32) (s : Tcb) :
    Sat NoDivision (fun t => t.snd.cwnd = recoveredCwnd s.snd segAck acked)
      (s.recoverFromAck tso segAck acked) := by
  simp only [Tcb.recoverFromAck, recoveredCwnd]
  split
  · exact cwnd_setRetransmitTimer _
  · split
    · exact cwnd_setRetransmitTimer _
    · refine (fastRetransmit_keeps s tso).bind fun t hkept => ?_
      show (if _ then t.snd.cwnd - acked + _ else t.snd.cwnd - acked) = _
      rw [hkept.1]

/-- The acknowledgment of new data keeps the window in its range. Outside of the fast recovery the
window grows. The end of the recovery sets it, and a partial acknowledgment takes away the acknowledged
bytes and adds a segment when it acknowledges one. -/
def AckFits (s : Send) (segAck : TcpSeq) : Prop :=
  if s.dupacks < 3 then s.grown segAck s.cwnd.toNat < 2 ^ 32
  else if s.recover.lt segAck then
    s.ssthresh ≠ 0 ∧ 0 < max (s.flightAfter segAck) s.mss.toNat ∧
      max (s.flightAfter segAck) s.mss.toNat + s.mss.toNat < 2 ^ 32
  else
    s.grown segAck s.cwnd.toNat < 2 ^ 32 ∧ (s.acked segAck).sum ≤ s.grown segAck s.cwnd.toNat ∧
      ((s.acked segAck).sum < s.grown segAck s.cwnd.toNat ∨
        s.mss ≠ 0 ∧ s.mss.toNat ≤ (s.acked segAck).sum)

/-- The bytes of limited transmit are part of the flight size, or so many more that half of the
wrapped difference is not above two segments. -/
def HalvesFlight (s : Send) : Prop :=
  s.limitedTransfer.toNat ≤ s.flightSize.toNat ∨
    2 ^ 32 + s.flightSize.toNat < s.limitedTransfer.toNat + 4 * s.mss.toNat + 2

/-- A duplicate acknowledgment keeps the window in its range: the third one sets it, and the later ones
add a segment. -/
def DuplicateFits (s : Send) (segAck : TcpSeq) : Prop :=
  (s.dupacks + 1 = 3 →
    (s.recover.lt (segAck.add (-1)) = true → HalvesFlight s) ∧
      0 < s.ssthreshAfter segAck + 3 * s.mss.toNat ∧
      s.ssthreshAfter segAck + 3 * s.mss.toNat < 2 ^ 32) ∧
  (3 < s.dupacks + 1 → s.cwnd.toNat + s.mss.toNat < 2 ^ 32)

/-- The window is positive, and it is the one over the integers. -/
def IsExact (c : Int) (w : BitVec 32) : Prop := (w.toNat : Int) = c ∧ w ≠ 0

/-- A word with a positive value is not zero. -/
theorem ne_zero_of_toNat {w : BitVec 32} (h : 0 < w.toNat) : w ≠ 0 := by
  rintro rfl
  exact absurd h (by decide)

/-- The window behind the recovery is the one over the integers, when the acknowledgment fits. -/
theorem isExact_recovered {s v : Send} {segAck : TcpSeq} {n : BitVec 32} (hpos : s.cwnd ≠ 0)
    (hfits : AckFits s segAck) (hn : n = BitVec.ofNat 32 (s.acked segAck).sum)
    (hgrows : Grows s v segAck (s.acked segAck) s.data) :
    IsExact (s.exactAck segAck s.cwnd.toNat) (recoveredCwnd v segAck n) := by
  have hcwnd : 0 < s.cwnd.toNat := by
    by_contra hzero
    exact hpos (BitVec.eq_of_toNat_eq (by simpa using hzero))
  have hmore : (s.cwnd.toNat : Int) ≤ s.grown segAck s.cwnd.toNat := le_grow _ _
  simp only [recoveredCwnd, AckFits, Send.exactAck, hgrows.dupacks, hgrows.recover, hgrows.mss,
    hgrows.ssthresh] at hfits ⊢
  split
  -- Not in fast recovery: the window only grows, as `Grows` has it.
  · rename_i hdup
    rw [if_pos hdup] at hfits
    have hexact : (v.cwnd.toNat : Int) = s.grown segAck s.cwnd.toNat := hgrows.cwnd hfits
    exact ⟨hexact, ne_zero_of_toNat (by omega)⟩
  · rename_i hdup
    rw [if_neg hdup] at hfits
    split
    · rename_i hover
      rw [if_pos hover] at hfits
      -- The acknowledgment covers the recovery point: the window is set anew.
      obtain ⟨hthresh, hroom, hlt⟩ := hfits
      have hflight : v.flightSize.toNat = s.flightAfter segAck := by
        unfold Send.flightAfter Send.flightSize
        rw [hgrows.data]
      have hthresh' : 0 < s.ssthresh.toNat := by
        by_contra hzero
        exact hthresh (BitVec.eq_of_toNat_eq (by simpa using hzero))
      have hsum : (umax v.flightSize (s.mss.zeroExtend 32) + s.mss.zeroExtend 32).toNat
          = max (s.flightAfter segAck) s.mss.toNat + s.mss.toNat := by
        rw [BitVec.toNat_add, toNat_umax, toNat_smss, hflight, Nat.mod_eq_of_lt hlt]
      have hmin := toNat_umin s.ssthresh (umax v.flightSize (s.mss.zeroExtend 32) + s.mss.zeroExtend 32)
      rw [hsum] at hmin
      refine ⟨?_, ne_zero_of_toNat ?_⟩
      · rw [hmin]
        omega
      · rw [hmin]
        omega
    · rename_i hover
      rw [if_neg hover] at hfits
      -- A partial acknowledgment: the window shrinks by what it covers, and one segment comes back.
      obtain ⟨hlt, hle, hroom⟩ := hfits
      have hexact : (v.cwnd.toNat : Int) = s.grown segAck s.cwnd.toNat := hgrows.cwnd hlt
      have hacked : n.toNat = (s.acked segAck).sum := by
        rw [hn, BitVec.toNat_ofNat]
        have := v.cwnd.isLt
        exact Nat.mod_eq_of_lt (by omega)
      have hdeflate : (v.cwnd - n).toNat = v.cwnd.toNat - (s.acked segAck).sum := by
        rw [BitVec.toNat_sub_of_le (BitVec.le_def.mpr (by omega)), hacked]
      have hwide := v.cwnd.isLt
      have hsmss : s.mss.zeroExtend 32 ≤ n ↔ s.mss.toNat ≤ (s.acked segAck).sum := by
        rw [BitVec.le_def, toNat_smss, hacked]
      by_cases hfull : s.mss.toNat ≤ (s.acked segAck).sum
      · rw [if_pos (hsmss.mpr hfull), if_pos hfull]
        have hadd : (v.cwnd - n + s.mss.zeroExtend 32).toNat
            = v.cwnd.toNat - (s.acked segAck).sum + s.mss.toNat := by
          rw [BitVec.toNat_add, hdeflate, toNat_smss, Nat.mod_eq_of_lt (by omega)]
        have hmss : s.mss ≠ 0 → 0 < s.mss.toNat := fun hne => by
          by_contra hzero
          exact hne (BitVec.eq_of_toNat_eq (by simpa using hzero))
        refine ⟨?_, ne_zero_of_toNat ?_⟩
        · rw [hadd]
          omega
        · rw [hadd]
          rcases hroom with hroom | ⟨hne, -⟩
          · omega
          · have := hmss hne
            omega
      · rw [if_neg (mt hsmss.mp hfull), if_neg hfull]
        refine ⟨?_, ne_zero_of_toNat ?_⟩
        · rw [hdeflate]
          omega
        · rw [hdeflate]
          omega

/-- The acknowledgment of new data. -/
theorem ackNewData_exact {th : TcbHdr} {segSeq : TcpSeq} (hpos : s.snd.cwnd ≠ 0)
    (hfits : AckFits s.snd th.ack) :
    Sat NoDivision (fun t => IsExact (s.snd.exactAck th.ack s.snd.cwnd.toNat) t.snd.cwnd)
      (s.ackNewData tso th segSeq) := by
  have hz : s.snd.cwnd ≠ 0 ∧ s.snd.grown th.ack s.snd.cwnd.toNat < 2 ^ 32 ∨ s.snd.ssthresh ≠ 0 := by
    unfold AckFits at hfits
    split at hfits
    · exact .inl ⟨hpos, hfits⟩
    · split at hfits
      · exact .inr hfits.1
      · exact .inl ⟨hpos, hfits.1⟩
  refine (ackSegments_grows th.ack s.snd.data 0 s.snd hz).bind fun ⟨n, v⟩ ⟨hn, hgrows⟩ => ?_
  have hn : n = BitVec.ofNat 32 (s.snd.acked th.ack).sum := by
    show (n, v).1 = _
    rw [hn]
    exact BitVec.zero_add _
  have hexact := isExact_recovered hpos hfits hn hgrows
  dsimp only
  split
  · exact (recoverFromAck_cwnd th.ack n _).mono fun t ht => by
      show IsExact _ t.snd.cwnd
      rw [ht]
      exact hexact
  · exact (recoverFromAck_cwnd th.ack n _).mono fun t ht => by
      show IsExact _ t.snd.cwnd
      rw [ht]
      exact hexact

/-- The new `ssthresh` is the one over the integers. -/
theorem toNat_halfFlight {s : Send} (h : HalvesFlight s) :
    ((umax ((s.flightSize - s.limitedTransfer) / 2) (2 * s.mss.zeroExtend 32)).toNat : Int) =
      max (((s.flightSize.toNat : Int) - s.limitedTransfer.toNat) / 2) (2 * s.mss.toNat) := by
  have hmss := s.mss.isLt
  have hflight := s.flightSize.isLt
  have hlimited := s.limitedTransfer.isLt
  have h2 : (2 : BitVec 32).toNat = 2 := rfl
  have hdouble : (2 * s.mss.zeroExtend 32).toNat = 2 * s.mss.toNat := by
    rw [BitVec.toNat_mul, toNat_smss, h2]
    omega
  rw [toNat_umax, hdouble, BitVec.toNat_udiv, h2]
  rcases h with hle | hgt
  · rw [BitVec.toNat_sub_of_le (BitVec.le_def.mpr hle)]
    omega
  · rw [BitVec.toNat_sub]
    omega

/-- A duplicate acknowledgment. -/
theorem duplicateAck_exact {segAck : TcpSeq} (hpos : s.snd.cwnd ≠ 0)
    (hfits : DuplicateFits s.snd segAck) :
    Sat NoDivision
      (fun x => IsExact (s.snd.exactDuplicate segAck s.snd.cwnd.toNat) x.1.snd.cwnd)
      (s.duplicateAck tso segAck) := by
  obtain ⟨hthird, hlater⟩ := hfits
  simp only [Tcb.duplicateAck]
  split
  · rename_i hfew
    have hsame : s.snd.exactDuplicate segAck s.snd.cwnd.toNat = s.snd.cwnd.toNat := by
      unfold Send.exactDuplicate
      rcases hfew with hone | htwo
      · rw [hone]
        rfl
      · rw [htwo]
        rfl
    rw [hsame]
    exact ⟨rfl, hpos⟩
  · split
    · rename_i hthree
      rw [Send.exactDuplicate, if_pos hthree]
      obtain ⟨hhalves, hmore, hlt⟩ := hthird hthree
      -- `ssthresh` is the new one when the acknowledgment is behind `recover`.
      refine Sat.bind (P := fun t => (t.snd.ssthresh.toNat : Int) = s.snd.ssthreshAfter segAck) ?_
        fun t ht => ?_
      · unfold Send.ssthreshAfter
        split
        · rename_i hrecover
          refine (fastRetransmit_keeps _ tso).mono fun t hkept => ?_
          rw [hkept.2]
          exact toNat_halfFlight (hhalves hrecover)
        · exact rfl
      · have hthrice : ((t.snd.ssthresh + 3 * s.snd.mss.zeroExtend 32).toNat : Int)
            = s.snd.ssthreshAfter segAck + 3 * s.snd.mss.toNat := by
          have hmss := s.snd.mss.isLt
          have h3 : (3 : BitVec 32).toNat = 3 := rfl
          rw [← ht] at hlt ⊢
          rw [BitVec.toNat_add, BitVec.toNat_mul, toNat_smss, h3]
          omega
        refine ⟨hthrice, ne_zero_of_toNat ?_⟩
        show 0 < (t.snd.ssthresh + 3 * s.snd.mss.zeroExtend 32).toNat
        rw [← hthrice] at hmore
        exact Int.natCast_pos.mp hmore
    · rename_i hthree
      rw [Send.exactDuplicate, if_neg hthree]
      by_cases hmany : 3 < s.snd.dupacks + 1
      · rw [if_pos hmany]
        rw [if_pos hmany]
        have hsum : (s.snd.cwnd + s.snd.mss.zeroExtend 32).toNat
            = s.snd.cwnd.toNat + s.snd.mss.toNat := by
          rw [BitVec.toNat_add, toNat_smss, Nat.mod_eq_of_lt (hlater hmany)]
        have hcwnd : 0 < s.snd.cwnd.toNat := by
          by_contra hzero
          exact hpos (BitVec.eq_of_toNat_eq (by simpa using hzero))
        refine ⟨?_, ne_zero_of_toNat ?_⟩
        · show ((s.snd.cwnd + s.snd.mss.zeroExtend 32).toNat : Int) = _
          rw [hsum]
          omega
        · show 0 < (s.snd.cwnd + s.snd.mss.zeroExtend 32).toNat
          omega
      · rw [if_neg hmany, if_neg hmany]
        exact ⟨rfl, hpos⟩

/-! ### Segments -/

/-- The window over the integers behind an acknowledgment in ESTABLISHED or CLOSE_WAIT. -/
def exactEstablished (s : Tcb) (th : TcbHdr) (p : Packet) (c : Int) : Int :=
  if s.snd.unacknowledged.lt th.ack && th.ack.le s.snd.next then s.snd.exactAck th.ack c
  else if s.isDuplicateAck th p then s.snd.exactDuplicate th.ack c
  else c

/-- The acknowledgment of a segment keeps the window in its range. -/
def SegmentFits (s : Tcb) (th : TcbHdr) (p : Packet) : Prop :=
  if s.snd.unacknowledged.lt th.ack && th.ack.le s.snd.next then AckFits s.snd th.ack
  else if s.isDuplicateAck th p then DuplicateFits s.snd th.ack
  else True

/-- The window behind an acknowledgment in ESTABLISHED is the one over the integers. -/
theorem ackEstablished_exact {th : TcbHdr} {segSeq : TcpSeq} {p : Packet} (hpos : s.snd.cwnd ≠ 0)
    (hfits : SegmentFits s th p) :
    Sat NoDivision
      (fun flow => IsExact (exactEstablished s th p s.snd.cwnd.toNat) (Flow.tcb flow).snd.cwnd)
      (s.ackEstablished tso th segSeq p) := by
  unfold SegmentFits at hfits
  unfold Tcb.ackEstablished
  by_cases hnew : (s.snd.unacknowledged.lt th.ack && th.ack.le s.snd.next) = true
  · rw [if_pos hnew] at hfits ⊢
    rw [exactEstablished, if_pos hnew]
    exact (ackNewData_exact hpos hfits).bind fun t ht => ht
  · rw [if_neg hnew] at hfits ⊢
    rw [exactEstablished, if_neg hnew]
    by_cases hdup : s.isDuplicateAck th p = true
    · rw [if_pos hdup] at hfits ⊢
      rw [if_pos hdup]
      exact (duplicateAck_exact hpos hfits).bind fun t ht => ht
    · rw [if_neg hdup, if_neg hdup]
      split
      · show IsExact _ s.output.snd.cwnd
        rw [snd_output]
        exact ⟨rfl, hpos⟩
      · split
        · exact ⟨rfl, hpos⟩
        · exact ⟨rfl, hpos⟩

/-- The acknowledgment of our FIN keeps the window. -/
theorem cwnd_ackFin (segAck : TcpSeq) (d : Bool) (s : Tcb) :
    (Flow.tcb (s.ackFin segAck d)).snd.cwnd = s.snd.cwnd := by
  unfold Tcb.ackFin
  dsimp only
  split
  · show (if _ then _ else s : Tcb).snd.cwnd = _
    split
    · rfl
    · rfl
  · split
    · show (if _ then _ else s : Tcb).snd.cwnd = _
      split
      · rfl
      · rfl
    · split
      · split
        · rfl
        · rfl
      · rfl

/-- What follows the acknowledgment of data leaves the window alone. -/
theorem keepsCwnd_afterAck (th : TcbHdr) (segSeq : TcpSeq) (p : Packet) (d : Bool) (s : Tcb) :
    KeepsCwnd s (match s.ackFin th.ack d with
      | .ret s => .ok s
      | .go s d => s.textAndFin th segSeq p d) := by
  have hfin := cwnd_ackFin th.ack d s
  generalize s.ackFin th.ack d = flow at hfin ⊢
  cases flow with
  | ret t => exact hfin
  | go t d => exact (keepsCwnd_textAndFin th segSeq p d t).after hfin

/-- The window behind a segment that carries data both ways is the one over the integers. -/
theorem handleSynchronized_exact {th : TcbHdr} {segSeq : TcpSeq} {p : Packet}
    (hin : s.inState [.established, .closeWait] = true) (hpos : s.snd.cwnd ≠ 0)
    (hfits : SegmentFits s th p) :
    Sat NoDivision (fun t => IsExact (exactEstablished s th p s.snd.cwnd.toNat) t.snd.cwnd)
      (s.handleSynchronized tso th segSeq p) := by
  unfold Tcb.handleSynchronized
  rw [if_pos hin]
  refine (ackEstablished_exact hpos hfits).bind fun flow hflow => ?_
  cases flow with
  | ret t => exact hflow
  | go t d =>
    refine (keepsCwnd_afterAck th segSeq p d t).mono fun u hu => ?_
    rw [hu]
    exact hflow

/-- Outside ESTABLISHED and CLOSE_WAIT a segment keeps the window. -/
theorem keepsCwnd_handleSynchronized {th : TcbHdr} {segSeq : TcpSeq} {p : Packet}
    (hin : s.inState [.established, .closeWait] = false) :
    KeepsCwnd s (s.handleSynchronized tso th segSeq p) := by
  unfold Tcb.handleSynchronized
  rw [if_neg (by rw [hin]; decide)]
  exact keepsCwnd_afterAck th segSeq p false s

/-- Data flows only behind ESTABLISHED. -/
theorem inState_of_advance {a b : TcpState} (h : Advance a b)
    (hb : [TcpState.established, .closeWait].contains b = true) :
    [TcpState.established, .closeWait].contains a = true := by
  cases h with
  | stay => exact hb
  | fin => rfl
  | finAfterOurs | finAcked => cases hb

/-- A connection in which data flows behind a segment was in such a state before it. -/
theorem handleSynchronized_inState {th : TcbHdr} {segSeq : TcpSeq} {p : Packet}
    (h : s.handleSynchronized tso th segSeq p = .ok t) (hsyn : s.state ≠ .synReceived)
    (ht : t.inState [.established, .closeWait] = true) :
    s.inState [.established, .closeWait] = true := by
  rcases handleSynchronized_cases h hsyn with
    hmoves | ⟨v, -, ⟨-, -, -, -, rfl⟩ | ⟨-, -, rfl⟩ | ⟨-, -, rfl⟩⟩
  · exact inState_of_advance hmoves.state ht
  · cases ht
  · cases ht
  · cases ht

/-- The window behind an event is the one over the integers, and it is not zero while data flows. -/
def WindowAfter (c : Int) (t : Tcb) : Prop :=
  (t.snd.cwnd.toNat : Int) = c ∧ (t.inState [.established, .closeWait] = true → t.snd.cwnd ≠ 0)

/-- The window is positive while data flows. -/
def Positive (s : Tcb) : Prop := s.inState [.established, .closeWait] = true → s.snd.cwnd ≠ 0

/-- A step that keeps the window keeps it exact. -/
theorem windowAfter_of_keeps (hpos : Positive s) (hcwnd : t.snd.cwnd = s.snd.cwnd)
    (hin : t.inState [.established, .closeWait] = true →
      s.inState [.established, .closeWait] = true) : WindowAfter s.snd.cwnd.toNat t := by
  rw [WindowAfter, hcwnd]
  exact ⟨rfl, fun ht => hpos (hin ht)⟩

/-- Asking for output keeps the window exact. -/
theorem windowAfter_output (hpos : Positive s) : WindowAfter s.snd.cwnd.toNat s.output := by
  refine windowAfter_of_keeps hpos ?_ fun ht => ?_
  · rw [snd_output]
  · rw [Tcb.inState, state_output] at ht
    exact ht

/-- The acknowledgment of a segment with the payload `q`. -/
theorem acknowledgment_of_payload {th : TcbHdr} {p q : Packet}
    (hq : trimFront p (th.dataOffset * 4) = .ok q) :
    s.acknowledgment th p =
      if s.rcv.segmentAcceptable th.seq q.length &&
          (s.rcv.trimDuplicate th.seq q).1 = s.rcv.next && !th.fRst && !th.fSyn && th.fAck &&
          s.takesAck th.ack
      then some (s.rcv.trimDuplicate th.seq q).2 else none := by
  unfold Tcb.acknowledgment
  rw [hq]

/-- The step meets the condition on a segment whose text is `p`. -/
def AckStepFits (s : Tcb) (th : TcbHdr) (p : Packet) : Prop :=
  (s.state = .synReceived → s.snd.cwnd ≠ 0) ∧ SegmentFits s th p

/-- The window behind the acknowledgment and the text of a segment is the one over the integers. -/
theorem ackAndText_exact {th : TcbHdr} {segSeq : TcpSeq} {p : Packet} (hpos : Positive s)
    (hfits : s.takesAck th.ack = true → AckStepFits s th p) :
    Sat NoDivision
      (WindowAfter (if s.takesAck th.ack then exactEstablished s th p s.snd.cwnd.toNat
        else s.snd.cwnd.toNat))
      (s.ackAndText tso th segSeq p) := by
  unfold Tcb.takesAck at hfits ⊢
  unfold Tcb.ackAndText
  rcases ackSynReceived_cases th.ack s with
    ⟨hst, hgo⟩ | ⟨hst, hack, hgo⟩ | ⟨hst, hack, hret⟩
  · -- The handshake is over: only ESTABLISHED and CLOSE_WAIT touch the window.
    have hnot : s.inState [.synReceived] = false := by simpa [Tcb.inState] using hst
    rw [hnot, Bool.false_and, Bool.or_false] at hfits ⊢
    simp only [hgo]
    by_cases hin : s.inState [.established, .closeWait] = true
    · rw [if_pos hin]
      refine (handleSynchronized_exact hin (hpos hin) (hfits hin).2).mono fun t ht => ?_
      exact ⟨ht.1, fun _ => ht.2⟩
    · rw [if_neg hin]
      have hkeeps : KeepsCwnd s (s.handleSynchronized tso th segSeq p) :=
        keepsCwnd_handleSynchronized (by simpa using hin)
      exact hkeeps.mono_result fun t hok hcwnd =>
        windowAfter_of_keeps hpos hcwnd (handleSynchronized_inState hok hst)
  · -- The segment acknowledges our SYN and is processed in ESTABLISHED at once.
    have hsyn : s.inState [.synReceived] = true := by simp [Tcb.inState, hst]
    rw [hsyn, hack, Bool.and_true, Bool.or_true] at hfits ⊢
    obtain ⟨hcwnd, hseg⟩ := hfits rfl
    simp only [hgo, if_true]
    have hnext : Sat NoDivision
        (fun t => IsExact (exactEstablished s th p s.snd.cwnd.toNat) t.snd.cwnd)
        ((synAcked s).handleSynchronized tso th segSeq p) :=
      handleSynchronized_exact rfl (hcwnd hst) hseg
    exact hnext.mono fun t ht => ⟨ht.1, fun _ => ht.2⟩
  · -- The segment acknowledges something else during the handshake.
    have hnot : s.inState [.established, .closeWait] = false := by simp [Tcb.inState, hst]
    rw [hnot, hack, Bool.and_false, Bool.or_false]
    simp only [hret]
    exact windowAfter_of_keeps hpos rfl id

/-- The window behind a segment in order is the one over the integers. -/
theorem handleInOrder_exact {th : TcbHdr} {segSeq : TcpSeq} {p : Packet} (hpos : Positive s)
    (hfits : (!th.fRst && !th.fSyn && th.fAck && s.takesAck th.ack) = true → AckStepFits s th p) :
    Sat NoDivision
      (WindowAfter (if !th.fRst && !th.fSyn && th.fAck && s.takesAck th.ack then
        exactEstablished s th p s.snd.cwnd.toNat else s.snd.cwnd.toNat))
      (s.handleInOrder tso th segSeq p) := by
  generalize hc : (if !th.fRst && !th.fSyn && th.fAck && s.takesAck th.ack then
    exactEstablished s th p s.snd.cwnd.toNat else (s.snd.cwnd.toNat : Int)) = c
  have hstop : ∀ t : Tcb, (!th.fRst && !th.fSyn && th.fAck && s.takesAck th.ack) = false →
      t.state = .closed → t.snd.cwnd = s.snd.cwnd → WindowAfter c t := fun t hproc hst hcwnd => by
    rw [← hc, hproc]
    exact windowAfter_of_keeps hpos hcwnd fun hin => by simp [Tcb.inState, hst] at hin
  unfold Tcb.handleInOrder
  split
  · rename_i hrst
    exact hstop _ (by simp [(Bool.and_eq_true _ _ |>.mp hrst).1]) rfl rfl
  · rename_i hsynrst
    split
    · rename_i hrst
      exact hstop _ (by simp [(Bool.and_eq_true _ _ |>.mp hrst).1]) rfl rfl
    · rename_i hestrst
      split
      · rename_i hrst
        exact hstop _ (by simp [(Bool.and_eq_true _ _ |>.mp hrst).1]) rfl rfl
      · split
        · rename_i hsyn
          exact hstop _ (by simp [hsyn]) rfl rfl
        · rename_i hsyn
          have hsyn : th.fSyn = false := by simpa using hsyn
          split
          · rename_i hack
            have hack : th.fAck = false := by simpa using hack
            rw [← hc, hack, Bool.and_false, Bool.false_and]
            exact windowAfter_of_keeps hpos rfl id
          · rename_i hack
            have hack : th.fAck = true := by simpa using hack
            rw [hsyn, hack, Bool.not_false, Bool.and_true, Bool.and_true] at hfits hc
            -- A reset comes here only in a state that takes no acknowledgment.
            have htakes : (!th.fRst && s.takesAck th.ack) = s.takesAck th.ack := by
              cases hrst : th.fRst with
              | false => rfl
              | true =>
                rw [hrst, Bool.true_and] at hsynrst hestrst
                have hest : s.inState [.established, .closeWait] = false := by
                  simp only [Tcb.inState, List.contains_cons, List.contains_nil] at hestrst ⊢
                  simp_all
                rw [Tcb.takesAck, hest, Bool.not_eq_true _ |>.mp hsynrst]
                rfl
            rw [htakes] at hfits hc
            rw [← hc]
            exact ackAndText_exact hpos hfits

/-- The window behind a segment in a synchronized state. -/
theorem inputHandleOtherState_exact {th : TcbHdr} {p : Packet} (hpos : Positive s)
    (hfits : ∀ r, s.acknowledgment th p = some r → AckStepFits s th r) :
    Sat NoDivision
      (WindowAfter (match s.acknowledgment th p with
        | none => s.snd.cwnd.toNat
        | some r => exactEstablished s th r s.snd.cwnd.toNat))
      (s.inputHandleOtherState tso th p) := by
  refine (Sat.mapError noDivision_merger _).bind_result fun q hq => ?_
  have hpayload := acknowledgment_of_payload (s := s) (mapError_eq_ok.mp hq)
  rw [hpayload] at hfits ⊢
  by_cases hacc : s.rcv.segmentAcceptable th.seq q.length = true
  · rw [hacc, Bool.true_and] at hfits ⊢
    rw [if_pos rfl]
    dsimp only
    by_cases hseq : (s.rcv.trimDuplicate th.seq q).1 = s.rcv.next
    · rw [decide_eq_true hseq, Bool.true_and] at hfits ⊢
      rw [if_pos hseq]
      have hnext := @handleInOrder_exact s tso th (s.rcv.trimDuplicate th.seq q).1 _
        hpos fun hproc => hfits _ (if_pos hproc)
      split
      · rename_i hnone
        rw [ite_eq_right_iff] at hnone
        rw [if_neg (fun hproc => nomatch hnone hproc)] at hnext
        exact hnext
      · rename_i r hsome
        obtain ⟨hproc, hr⟩ := Option.ite_none_right_eq_some.mp hsome
        obtain rfl := Option.some.inj hr
        rw [if_pos hproc] at hnext
        exact hnext
    · -- The segment is out of order.
      rw [decide_eq_false hseq, Bool.false_and, Bool.false_and, Bool.false_and, Bool.false_and]
      rw [if_neg hseq]
      refine (Sat.mapError noDivision_merger _).bind fun rcv _ => ?_
      exact windowAfter_output (s := { s with rcv := rcv }) hpos
  · -- The segment is not acceptable: it is only answered.
    rw [Bool.not_eq_true _ |>.mp hacc, Bool.false_and, Bool.false_and, Bool.false_and,
      Bool.false_and, Bool.false_and]
    exact windowAfter_output hpos

/-- The initial window fits in 32 bits for every segment size. -/
theorem toNat_initialWindow (m : BitVec 16) :
    (if (2190 : BitVec 32) < m.zeroExtend 32 then 2 * m.zeroExtend 32
      else if 1095 < m.zeroExtend 32 ∧ m.zeroExtend 32 ≤ (2190 : BitVec 32) then 3 * m.zeroExtend 32
      else 4 * m.zeroExtend 32).toNat = initialWindow m.toNat := by
  have hm := m.isLt
  have hmul (k : Nat) (hk : k ≤ 4) : (BitVec.ofNat 32 k * m.zeroExtend 32).toNat = k * m.toNat := by
    have hle : k * m.toNat ≤ 4 * m.toNat := Nat.mul_le_mul_right _ hk
    rw [BitVec.toNat_mul, toNat_smss, BitVec.toNat_ofNat, Nat.mod_eq_of_lt (a := k) (by omega),
      Nat.mod_eq_of_lt (by omega)]
  have hlarge : (2190 : BitVec 32) < m.zeroExtend 32 ↔ 2190 < m.toNat := by
    rw [BitVec.lt_def, toNat_smss]
    rfl
  have hmedium : (1095 : BitVec 32) < m.zeroExtend 32 ↔ 1095 < m.toNat := by
    rw [BitVec.lt_def, toNat_smss]
    rfl
  unfold initialWindow
  by_cases h1 : 2190 < m.toNat
  · rw [if_pos (hlarge.mpr h1), if_pos h1]
    exact hmul 2 (by decide)
  · have hsmall : m.zeroExtend 32 ≤ (2190 : BitVec 32) := BitVec.not_lt.mp (mt hlarge.mp h1)
    rw [if_neg (mt hlarge.mp h1), if_neg h1]
    by_cases h2 : 1095 < m.toNat
    · rw [if_pos ⟨hmedium.mpr h2, hsmall⟩, if_pos h2]
      exact hmul 3 (by decide)
    · rw [if_neg (fun h => h2 (hmedium.mp h.1)), if_neg h2]
      exact hmul 4 (by decide)

/-- The initial window is positive. -/
theorem initialWindow_pos {n : Nat} (h : 0 < n) : 0 < initialWindow n := by
  unfold initialWindow
  split
  · omega
  · split
    · omega
    · omega

/-- The window behind the options of the peer. -/
theorem cwnd_initFromOptions (th : TcbHdr) (options : List UInt8) (s : Tcb) :
    (s.initFromOptions th options).snd.cwnd.toNat
      = initialWindow (s.initFromOptions th options).snd.mss.toNat :=
  toNat_initialWindow _

/-- The window behind a segment in SYN_SENT. -/
theorem inputHandleSynSentState_exact {th : TcbHdr} {p : Packet} (hst : s.state = .synSent)
    (hfits : s.answersSyn th p = true → (s.parsedOption th p).remoteMss ≠ 0) :
    Sat NoDivision
      (WindowAfter (if s.answersSyn th p then initialWindow (s.parsedOption th p).remoteMss.toNat
        else s.snd.cwnd.toNat))
      (s.inputHandleSynSentState th p) := by
  have hpos : Positive s := fun hin => by simp [Tcb.inState, hst] at hin
  -- The branches below follow the source, and each one decides a conjunct of `answersSyn`.
  generalize hc : (if s.answersSyn th p = true then
    (initialWindow (s.parsedOption th p).remoteMss.toNat : Int) else s.snd.cwnd.toNat) = c
  unfold Tcb.answersSyn at hfits hc
  by_cases hlen : th.dataOffset * 4 ≤ p.length
  · rw [decide_eq_true hlen, Bool.true_and] at hfits hc
    have hoptions : Tcb.optionBytes th p = .ok (p.drop TcpHdr.len) := if_pos hlen
    unfold Tcb.inputHandleSynSentState
    rw [hoptions]
    show Sat NoDivision _ (if _ then _ else _)
    -- Every branch but the last one leaves the window alone.
    have hstay (t : Tcb) (hno : c = s.snd.cwnd.toNat) (hcwnd : t.snd.cwnd = s.snd.cwnd)
        (hin : t.inState [.established, .closeWait] = false) : WindowAfter c t := by
      rw [hno]
      exact windowAfter_of_keeps hpos hcwnd fun h => by rw [hin] at h; cases h
    split
    · rename_i hack
      rw [hack, Bool.not_true] at hc
      exact hstay s hc.symm rfl (by simp [Tcb.inState, hst])
    · rename_i hack
      rw [Bool.not_eq_true _ |>.mp hack, Bool.not_false, Bool.true_and] at hfits hc
      dsimp only
      split
      · rename_i hrst
        rw [hrst] at hc
        split
        · exact hstay _ hc.symm rfl rfl
        · exact hstay s hc.symm rfl (by simp [Tcb.inState, hst])
      · rename_i hrst
        rw [Bool.not_eq_true _ |>.mp hrst] at hfits hc
        split
        · rename_i hsyn
          rw [Bool.not_eq_true' _ |>.mp hsyn] at hc
          exact hstay s hc.symm rfl (by simp [Tcb.inState, hst])
        · rename_i hsyn
          have hsyn : th.fSyn = true := by simpa using hsyn
          rw [hsyn, Bool.not_false, Bool.true_and, Bool.true_and] at hfits hc
          have hanswered := synAnswered_eq th s
          dsimp only at hanswered ⊢
          simp only [hanswered]
          have huna : (if th.fAck then th.ack else s.snd.unacknowledged)
              = (synAnswered th s).snd.unacknowledged := rfl
          rw [huna] at hfits hc
          show Sat NoDivision (WindowAfter c)
            (if s.snd.initial.lt (synAnswered th s).snd.unacknowledged = true then _ else _)
          by_cases hnew : s.snd.initial.lt (synAnswered th s).snd.unacknowledged = true
          · -- The options of the peer set the window.
            have hmss := hfits hnew
            rw [if_pos hnew] at hc ⊢
            have hwindow : ((synAnswered th s).initFromOptions th (p.drop TcpHdr.len)).snd.cwnd.toNat
                = initialWindow (s.parsedOption th p).remoteMss.toNat := cwnd_initFromOptions _ _ _
            have hfirst : 0 < initialWindow (s.parsedOption th p).remoteMss.toNat := by
              refine initialWindow_pos (Nat.pos_of_ne_zero fun hzero => hmss ?_)
              exact BitVec.eq_of_toNat_eq hzero
            show WindowAfter c (Tcb.output _)
            rw [WindowAfter, snd_output, ← hc]
            refine ⟨congrArg Int.ofNat hwindow, fun _ => ne_zero_of_toNat ?_⟩
            show 0 < ((synAnswered th s).initFromOptions th (p.drop TcpHdr.len)).snd.cwnd.toNat
            rw [hwindow]
            exact hfirst
          · rw [if_neg hnew] at hc ⊢
            refine hstay _ hc.symm ?_ ?_
            · show (Tcb.output _).snd.cwnd = _
              rw [snd_output]
              rfl
            · show (Tcb.output _).inState _ = _
              rw [Tcb.inState, state_output]
              rfl
  -- The header says that it is longer than the segment: the code stops, but not at a division.
  · have hnull : Tcb.optionBytes th p = .error .nullHeader := if_neg hlen
    unfold Tcb.inputHandleSynSentState
    rw [hnull]
    exact fun h => nomatch h

/-! ### The other events -/

/-- Arming the retransmission timer again keeps the window. -/
theorem cwnd_outputUpdateRto (s : Tcb) : s.outputUpdateRto.snd.cwnd = s.snd.cwnd := by
  rw [snd_outputUpdateRto]

/-- The timer sets the window to one segment when there is data in flight. -/
theorem retransmitData_cwnd (s : Tcb) (tso : Bool) :
    Sat NoDivision
      (fun t => t.snd.cwnd = if s.snd.data ≠ [] then s.snd.mss.zeroExtend 32 else s.snd.cwnd)
      (s.retransmitData tso) := by
  unfold Tcb.retransmitData
  cases hdata : s.snd.data with
  | nil => exact rfl
  | cons seg rest =>
    rw [if_pos (List.cons_ne_nil seg rest)]
    dsimp only
    split
    · refine (keepsCwnd_outputOne _ tso true).bind fun t ht => ?_
      show t.outputUpdateRto.snd.cwnd = _
      rw [cwnd_outputUpdateRto, ht]
      rfl
    · exact rfl

/-- The window behind a retransmission is one segment when data is retransmitted. -/
theorem retransmitFinData_cwnd (s : Tcb) (tso : Bool) :
    Sat NoDivision
      (fun t => t.snd.cwnd =
        if (!(s.finNeedsOn && !(s.snd.finRetransmit < Tcb.maxNrRetransmit)) && s.snd.data ≠ [] : Bool)
        then s.snd.mss.zeroExtend 32 else s.snd.cwnd)
      (s.retransmitFinData tso) := by
  simp only [Tcb.retransmitFinData]
  by_cases hfin : s.finNeedsOn = true
  · rw [if_pos hfin, hfin, Bool.true_and]
    by_cases hlt : s.snd.finRetransmit < Tcb.maxNrRetransmit
    · rw [if_pos hlt, decide_eq_true hlt]
      refine (retransmitData_cwnd _ tso).mono fun t ht => ?_
      rw [snd_outputUpdateRto] at ht
      simpa using ht
    · rw [if_neg hlt, decide_eq_false hlt]
      exact rfl
  · rw [if_neg hfin, Bool.not_eq_true _ |>.mp hfin]
    refine (retransmitData_cwnd s tso).mono fun t ht => ?_
    simpa using ht

/-- A timeout puts the window down to one segment. -/
theorem retransmit_cwnd (s : Tcb) (tso : Bool) :
    Sat NoDivision
      (fun t => t.snd.cwnd = if s.timesOut then s.snd.mss.zeroExtend 32 else s.snd.cwnd)
      (s.retransmit tso) := by
  simp only [Tcb.retransmit]
  by_cases hsyn : s.synNeedsOn = true
  · rw [if_pos hsyn]
    by_cases hlt : s.snd.synRetransmit < Tcb.maxNrRetransmit
    · have htimes : s.timesOut = (!(s.finNeedsOn && !(s.snd.finRetransmit < Tcb.maxNrRetransmit)) &&
          s.snd.data ≠ [] : Bool) := by
        rw [Tcb.timesOut, hsyn, decide_eq_true hlt]
        rfl
      rw [if_pos hlt, htimes]
      refine (retransmitFinData_cwnd _ tso).mono fun t ht => ?_
      simp only [Tcb.finNeedsOn, Tcb.inState, state_outputUpdateRto, snd_outputUpdateRto] at ht
      simpa [Tcb.finNeedsOn, Tcb.inState] using ht
    · have htimes : s.timesOut = false := by
        rw [Tcb.timesOut, hsyn, decide_eq_false hlt]
        rfl
      rw [if_neg hlt, htimes]
      exact rfl
  · have htimes : s.timesOut = (!(s.finNeedsOn && !(s.snd.finRetransmit < Tcb.maxNrRetransmit)) &&
        s.snd.data ≠ [] : Bool) := by
      rw [Tcb.timesOut, Bool.not_eq_true _ |>.mp hsyn]
      rfl
    rw [if_neg hsyn, htimes]
    exact retransmitFinData_cwnd s tso

/-- `close` keeps the window. -/
theorem cwnd_close (s : Tcb) : s.close.snd.cwnd = s.snd.cwnd := by
  unfold Tcb.close
  split
  · rfl
  · show s.snd.waitForAllDataAcked.cwnd = _
    unfold Send.waitForAllDataAcked
    split
    · rfl
    · rfl

/-- `send` keeps the window. -/
theorem cwnd_send (p : Packet) (s : Tcb) : (s.send p).snd.cwnd = s.snd.cwnd := by
  rcases send_cases s p with ⟨-, heq⟩ | ⟨-, v, -, hv, heq⟩
  · rw [heq]
  · have hcwnd : v.snd.cwnd = s.snd.cwnd := by
      rcases hv with rfl | rfl
      · exact cwnd_canSend _
      · rw [snd_output]
        exact cwnd_canSend _
    rw [heq]
    show v.snd.waitSendAvailable.cwnd = _
    unfold Send.waitSendAvailable
    split
    · exact hcwnd
    · exact hcwnd

/-- Polling again keeps the window. -/
theorem cwnd_pollAgain (s : Tcb) : s.pollAgain.snd.cwnd = s.snd.cwnd := by
  unfold Tcb.pollAgain
  split
  · rw [snd_output]
  · split
    · dsimp only
      split
      · rw [snd_output]
        exact cwnd_canSend s
      · exact cwnd_canSend s
    · rfl

/-- Handing a packet to the device keeps the window. -/
theorem getPacket_cwnd (s : Tcb) (tso : Bool) :
    Sat NoDivision (fun x => x.2.snd.cwnd = s.snd.cwnd) (s.getPacket tso) := by
  refine Sat.bind (P := fun t => t.snd.cwnd = s.snd.cwnd) ?_ fun t ht => ?_
  · split
    · exact keepsCwnd_outputOne _ tso false
    · exact rfl
  · split
    · exact ht
    · split
      · exact fun h => nomatch h
      · exact (cwnd_pollAgain _).trans ht

/-- A window probe keeps the window. -/
theorem keepsCwnd_persist (s : Tcb) (tso : Bool) : KeepsCwnd s (s.persist tso) := by
  refine (keepsCwnd_outputOne _ tso false).bind fun t ht => ?_
  show (Tcb.output _).snd.cwnd = _
  rw [snd_output]
  exact ht

/-- The rest of `close` keeps the window. -/
theorem keepsCwnd_closeContinuation (s : Tcb) (tso : Bool) :
    KeepsCwnd s (s.closeContinuation tso) := by
  rw [KeepsCwnd]
  refine Sat.bind (P := fun t => t.snd.cwnd = s.snd.cwnd) ?_ fun t ht => ?_
  · rw [closedState_eq]
    exact keepsCwnd_outputOne _ tso false
  · show t.output.snd.cwnd = _
    rw [snd_output]
    exact ht

/-- The timer of the retransmission apart, no event but a segment changes the window. -/
theorem handle_cwnd {e : TcbEvent} (s : Tcb) (tso : Bool) (hseg : ∀ th p, e ≠ .segment th p)
    (hretransmit : e ≠ .retransmit) :
    Sat NoDivision (fun x => x.2.snd.cwnd = s.snd.cwnd) (s.handle tso e) := by
  cases e with
  | segment th p => exact absurd rfl (hseg th p)
  | retransmit => exact absurd rfl hretransmit
  | send p => exact cwnd_send p s
  | read | closeRead | arpQueueFull => exact rfl
  | waitForData =>
    show s.waitForData.snd.cwnd = _
    unfold Tcb.waitForData
    split
    · rfl
    · rfl
  | close => exact cwnd_close s
  | shutdownConnect =>
    show s.shutdownConnect.snd.cwnd = _
    unfold Tcb.shutdownConnect
    split
    · rfl
    · exact cwnd_close _
  | closeContinuation => exact Sat.map (keepsCwnd_closeContinuation _ tso)
  | getPacket => exact getPacket_cwnd s tso
  | arpTimeout =>
    show s.arpTimeout.snd.cwnd = _
    unfold Tcb.arpTimeout
    dsimp only
    split
    · rfl
    · rfl
  | persist => exact Sat.map (keepsCwnd_persist _ tso)
  | delayedAck =>
    show (Tcb.delayedAck _).snd.cwnd = _
    unfold Tcb.delayedAck
    rw [snd_output]

end

/-! ### Runs -/

/-- The congestion window is the one over the integers. It is at least 1 in ESTABLISHED and in
CLOSE_WAIT, and `update_cwnd` did not divide by zero. -/
structure CwndExact (s : CwndSession) : Prop where
  exact : (s.session.tcb.snd.cwnd.toNat : Int) = s.exact
  positive : s.session.tcb.inState [.established, .closeWait] = true →
    1 ≤ s.session.tcb.snd.cwnd.toNat
  divides : s.session.fault ≠ some .divideByZero

/-- The step keeps the window in its range: the options of the SYN that answers ours offer a segment
size, the acknowledgment of a segment fits, and the timer finds a segment size. -/
def CwndFits (s : CwndSession) : TcbEvent → Prop
  | .segment th p =>
    if s.session.tcb.state = .synSent then
      s.session.tcb.answersSyn th p = true → (s.session.tcb.parsedOption th p).remoteMss ≠ 0
    else ∀ r, s.session.tcb.acknowledgment th p = some r → AckStepFits s.session.tcb th r
  | .retransmit => s.session.tcb.timesOut = true →
      s.session.tcb.inState [.established, .closeWait] = true → s.session.tcb.snd.mss ≠ 0
  | _ => True

/-- What one event does to the window. -/
theorem handle_exact {s : CwndSession} {tso : Bool} {e : TcbEvent} (h : CwndExact s)
    (hen : s.session.tcb.enabled e = true) (hfits : CwndFits s e) :
    Sat NoDivision (fun x => WindowAfter (s.session.tcb.exactAfter s.exact e) x.2)
      (s.session.tcb.handle tso e) := by
  have hpos : Positive s.session.tcb := fun hin => ne_zero_of_toNat (h.positive hin)
  rw [← h.exact]
  by_cases hseg : ∃ th p, e = .segment th p
  · obtain ⟨th, p, rfl⟩ := hseg
    refine Sat.map ?_
    unfold Tcb.inputHandle
    simp only [CwndFits, Tcb.exactAfter] at hfits ⊢
    by_cases hst : s.session.tcb.state = .synSent
    · rw [if_pos hst] at hfits
      rw [if_pos hst, if_pos hst]
      exact inputHandleSynSentState_exact hst hfits
    · rw [if_neg hst] at hfits
      rw [if_neg hst, if_neg hst]
      exact inputHandleOtherState_exact hpos hfits
  · have hseg : ∀ th p, e ≠ .segment th p := fun th p heq => hseg ⟨th, p, heq⟩
    -- Such an event changes the state only as `close` does.
    have hstate {o : Option OutSegment} {t : Tcb} (hok : s.session.tcb.handle tso e = .ok (o, t))
        (ht : t.inState [.established, .closeWait] = true) :
        s.session.tcb.inState [.established, .closeWait] = true := by
      have hsame := (handle_settles (s := s.session) hseg hen hok).2
      simp only [Tcb.inState] at ht ⊢
      generalize s.session.tcb.state = a at hsame ⊢
      rcases hsame with hsame | hsame
      · rw [hsame] at ht
        exact ht
      · rw [hsame] at ht
        revert ht
        cases a <;> decide
    by_cases hretransmit : e = .retransmit
    · subst hretransmit
      have hwindow : Sat NoDivision (fun x => x.2.snd.cwnd = if s.session.tcb.timesOut then
          s.session.tcb.snd.mss.zeroExtend 32 else s.session.tcb.snd.cwnd)
          (s.session.tcb.handle tso .retransmit) :=
        Sat.map (retransmit_cwnd { s.session.tcb with retransmitArmed := false } tso)
      refine hwindow.mono_result fun x hok hcwnd => ?_
      obtain ⟨o, t⟩ := x
      show WindowAfter (if s.session.tcb.timesOut then _ else _) t
      dsimp only at hcwnd
      by_cases htimes : s.session.tcb.timesOut = true
      · rw [if_pos htimes] at hcwnd ⊢
        rw [WindowAfter, hcwnd, toNat_smss]
        refine ⟨rfl, fun ht => ne_zero_of_toNat ?_⟩
        rw [toNat_smss]
        refine Nat.pos_of_ne_zero fun hzero => hfits htimes (hstate hok ht) ?_
        exact BitVec.eq_of_toNat_eq hzero
      · rw [if_neg htimes] at hcwnd ⊢
        exact windowAfter_of_keeps hpos hcwnd (hstate hok)
    · have hexact : s.session.tcb.exactAfter s.session.tcb.snd.cwnd.toNat e
          = s.session.tcb.snd.cwnd.toNat := by
        cases e with
        | segment th p => exact absurd rfl (hseg th p)
        | retransmit => exact absurd rfl hretransmit
        | send | read | waitForData | closeRead | close | closeContinuation | shutdownConnect
        | getPacket | arpQueueFull | arpTimeout | persist | delayedAck => rfl
      rw [hexact]
      refine (handle_cwnd s.session.tcb tso hseg hretransmit).mono_result fun x hok hcwnd => ?_
      obtain ⟨o, t⟩ := x
      exact windowAfter_of_keeps hpos hcwnd (hstate hok)

/-- Every step that fits keeps the window exact. -/
theorem CwndExact.step {s t : CwndSession} {tso : Bool} {e : TcbEvent} (h : CwndExact s)
    (hfits : CwndFits s e) (hstep : s.step tso e = some t) : CwndExact t := by
  obtain ⟨u, hu, rfl⟩ := Option.map_eq_some_iff.mp hstep
  unfold Session.step at hu
  split at hu
  · rename_i hrun
    have hnext := @handle_exact s tso e h hrun.2 hfits
    rcases hnext.cases with ⟨f, hf, hother⟩ | ⟨⟨o, v⟩, hv, hwindow⟩
    · rw [hf] at hu
      cases hu
      exact ⟨h.exact, h.positive, fun heq => hother (Option.some.inj heq)⟩
    · rw [hv] at hu
      cases hu
      refine ⟨?_, fun hin => ?_, fun heq => ?_⟩
      · show (v.snd.cwnd.toNat : Int) = if s.session.fault = none then _ else _
        rw [if_pos hrun.1]
        exact hwindow.1
      · refine Nat.pos_of_ne_zero fun hzero => hwindow.2 hin ?_
        exact BitVec.eq_of_toNat_eq hzero
      · have heq : s.session.fault = some .divideByZero := heq
        rw [hrun.1] at heq
        cases heq
  · cases hu

section

variable (s : Send) (segAck : TcpSeq)

/-- Whether an acknowledgment fits can be computed. -/
instance decidableAckFits : Decidable (AckFits s segAck) := by
  delta AckFits
  infer_instance

/-- Whether a duplicate acknowledgment fits can be computed. -/
instance decidableDuplicateFits : Decidable (DuplicateFits s segAck) := by
  delta DuplicateFits HalvesFlight
  infer_instance

/-- Whether the acknowledgment of a segment fits can be computed. -/
instance decidableAckStepFits (s : Tcb) (th : TcbHdr) (p : Packet) :
    Decidable (AckStepFits s th p) := by
  delta AckStepFits SegmentFits
  infer_instance

/-- Whether an event fits can be computed. -/
instance decidableCwndFits (s : CwndSession) : ∀ e, Decidable (CwndFits s e)
  | .segment th p => inferInstanceAs (Decidable (if s.session.tcb.state = .synSent then
      s.session.tcb.answersSyn th p = true → (s.session.tcb.parsedOption th p).remoteMss ≠ 0
    else ∀ r ∈ s.session.tcb.acknowledgment th p, AckStepFits s.session.tcb th r))
  | .retransmit => inferInstanceAs (Decidable (s.session.tcb.timesOut = true →
      s.session.tcb.inState [.established, .closeWait] = true → s.session.tcb.snd.mss ≠ 0))
  | .send _ | .read | .waitForData | .closeRead | .close | .closeContinuation | .shutdownConnect
  | .getPacket | .arpQueueFull | .arpTimeout | .persist | .delayedAck => isTrue trivial

end

end Netstar.Proofs.Net
