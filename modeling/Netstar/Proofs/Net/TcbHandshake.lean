import Netstar.Proofs.Net.TcbStream

/-!
# `Netstar.Proofs.Net.TcbHandshake`: from the handshake to the transfer

The results of `Netstar.Proofs.Net.TcbStream` start from a connection that has just left the
handshake (`JustEstablished`). This file shows that a handshake ends there. The application sends
nothing before, and the segment that ends the handshake acknowledges our SYN (`AcksOurSyn`): its
number is not the number of the SYN itself, which the handler also takes.
-/

set_option autoImplicit false

namespace Netstar.Proofs.Net

open Netstar.Lib
open Netstar.Spec.Net

/-- Our SYN is not acknowledged, and the application has sent nothing. -/
structure Handshaking (s : Tcb) : Prop where
  syn : s.synNeedsOn = true
  live : s.removed = false
  connected : s.connected = false
  una : s.snd.unacknowledged = s.snd.initial
  next : s.snd.next = s.snd.initial.add 1
  data : s.snd.data = []
  unsent : s.snd.unsent = []
  unsentLen : s.snd.unsentLen = 0
  space : s.snd.currentQueueSpace = 0
  noPayload : ∀ seg ∈ s.packetq, seg.payload = []

/-- The connection left the handshake, and the application has sent nothing. -/
structure Synchronized (s : Tcb) : Prop where
  state : s.state = .established ∨ s.state = .closeWait
  live : s.removed = false
  stream : TcbInv s.snd.initial [] 0 s

/-- The handshake failed: the connection is out of `_tcbs`, and it was never in ESTABLISHED. -/
def GivenUp (s : Tcb) : Prop :=
  s.removed = true ∧ s.inState [.closed, .synSent, .synReceived] = true

/-- A segment that could end the handshake in SYN_RECEIVED acknowledges more than the number before
our SYN. -/
def AcksOurSyn (s : Tcb) (th : TcbHdr) (p : Packet) : Prop :=
  s.state = .synReceived → (∃ r, InSequence s th p r) → th.fAck = true →
    th.fRst = false → th.fSyn = false → th.ack ≠ s.snd.initial

section
variable {s t : Tcb} {tso : Bool}

/-- Segments that fit and have no bytes are no segments. -/
theorem eq_nil_of_dataBytes {data : List UnackedSegment} (hbytes : dataBytes data = [])
    (hfits : ∀ seg ∈ data, Fits seg) : data = [] := by
  cases data with
  | nil => rfl
  | cons seg rest =>
    have hempty : seg.p = [] := (List.append_eq_nil_iff.mp hbytes).1
    have hpos := (hfits seg (by simp)).1
    simp [hempty] at hpos

/-- Whether a connection is shaking hands depends on these fields only. -/
theorem Handshaking.same (h : Handshaking s) (hst : t.state = s.state)
    (hrem : t.removed = s.removed) (hconn : t.connected = s.connected)
    (hsnd : SameStream s.snd t.snd) (hq : t.packetq = s.packetq) : Handshaking t where
  syn := by
    rw [Tcb.synNeedsOn, Tcb.inState, hst]
    exact h.syn
  live := hrem.trans h.live
  connected := hconn.trans h.connected
  una := by rw [hsnd.una, hsnd.initial, h.una]
  next := by rw [hsnd.next, hsnd.initial, h.next]
  data := by
    refine eq_nil_of_dataBytes ?_ (hsnd.fits ?_)
    · rw [hsnd.bytes, h.data]
      rfl
    · simp [h.data]
  unsent := hsnd.unsent.trans h.unsent
  unsentLen := hsnd.unsentLen.trans h.unsentLen
  space := hsnd.space.trans h.space
  noPayload := hq ▸ h.noPayload

/-- Asking for output goes on with the handshake. -/
theorem Handshaking.output (h : Handshaking s) : Handshaking s.output :=
  h.same (state_output s) (removed_output s) (keeps_output s).connected (snd_output s ▸ .refl _)
    (packetq_output s)

/-- `can_send` goes on with the handshake. -/
theorem Handshaking.canSend (h : Handshaking s) : Handshaking s.canSend.2 := by
  obtain ⟨x, hx⟩ := canSend_eq s.snd
  have hsnd : s.canSend.2.snd = { s.snd with limitedTransfer := x } := hx
  refine h.same rfl rfl rfl ?_ rfl
  rw [hsnd]
  exact .congr rfl

/-- Polling again goes on with the handshake. -/
theorem Handshaking.pollAgain (h : Handshaking s) : Handshaking s.pollAgain := by
  unfold Tcb.pollAgain
  split
  · exact h.output
  · split
    · dsimp only
      split
      · exact h.canSend.output
      · exact h.canSend
    · exact h

/-- The segments of the handshake carry no payload. -/
theorem Handshaking.outputOne (h : Handshaking s) (hout : s.outputOne tso false = .ok t) :
    Handshaking t := by
  rcases outputOne_ok hout with ⟨-, rfl⟩ | ⟨-, p, snd, htake, hemit⟩
  · exact h
  · have htransmit : s.snd.getTransmitPacket tso = ([], s.snd) := by
      rw [Send.getTransmitPacket, if_pos h.unsent]
    have htaken : (p, snd) = ([], s.snd) := by
      rw [← htransmit]
      exact (Except.ok.inj htake).symm
    cases htaken
    obtain ⟨delayed, armed, -, rfl⟩ := emit_ok hemit
    show Handshaking { s with
      snd := Tcb.emitSend false [] s.snd
      delayedAckArmed := delayed
      retransmitArmed := armed
      packetq := s.packetq ++ [s.makeSegment (s.emitSeq false) []] }
    rw [emitSend_of_empty rfl]
    refine ⟨h.syn, h.live, h.connected, h.una, h.next, h.data, h.unsent, h.unsentLen, h.space,
      fun seg hseg => ?_⟩
    rcases List.mem_append.mp hseg with hseg | hseg
    · exact h.noPayload seg hseg
    · rw [List.mem_singleton.mp hseg]
      rfl

/-- `close` does not change the state during the handshake. -/
theorem closedState_of_syn (h : s.synNeedsOn = true) : closedState s.state = s.state := by
  have hst : s.state = .synSent ∨ s.state = .synReceived := by
    simpa [Tcb.synNeedsOn, Tcb.inState] using h
  rcases hst with hst | hst
  · rw [hst]
    rfl
  · rw [hst]
    rfl

/-- With nothing in flight the retransmission timer sends only our SYN again. -/
theorem Handshaking.retransmitFinData (h : Handshaking s) : s.retransmitFinData tso = .ok s := by
  have hfin : s.finNeedsOn = false := by
    have hst : s.state = .synSent ∨ s.state = .synReceived := by
      simpa [Tcb.synNeedsOn, Tcb.inState] using h.syn
    rcases hst with hst | hst
    · simp [Tcb.finNeedsOn, Tcb.inState, hst]
    · simp [Tcb.finNeedsOn, Tcb.inState, hst]
  rw [Tcb.retransmitFinData, if_neg (by simp [hfin]), Tcb.retransmitData, h.data]

/-! ### Segments -/

/-- A number that is at most another and not equal to it is less. -/
theorem lt_of_le_ne {a b : TcpSeq} (hle : a.le b = true) (hne : b ≠ a) : a.lt b = true := by
  obtain ⟨a⟩ := a
  obtain ⟨b⟩ := b
  have hraw : b ≠ a := fun h => hne (by rw [h])
  have hahead : 0 ≤ (b - a).toInt := by simpa [TcpSeq.le, TcpSeq.lt, TcpSeq.sub] using hle
  have hbehind : (a - b).toInt < 0 := by
    rw [BitVec.toInt_eq_toNat_cond] at hahead ⊢
    split at hahead
    · split
      · bv_omega
      · bv_omega
    · bv_omega
  simpa [TcpSeq.lt, TcpSeq.sub] using hbehind

/-- The only number that acknowledges our SYN. -/
theorem ack_eq {iss ack : TcpSeq} (hlt : iss.lt ack = true) (hle : ack.le (iss.add 1) = true) :
    ack = iss.add 1 := by
  obtain ⟨a, hpos, hbound, rfl⟩ := ahead_of_lt hlt
  have hone : a = 1 := by
    have hle' : a ≤ 1 := le_flight hpos hbound hle
    omega
  rw [hone]
  rfl

/-- During the handshake our SYN is not acknowledged. -/
theorem Handshaking.una_lt (h : Handshaking s) :
    s.snd.unacknowledged.lt (s.snd.initial.add 1) = true := by
  have hbase : s.snd.initial = wrap s.snd.initial.raw 0 := by
    rw [← add_eq_wrap, add_zero]
  rw [h.una, add_eq_wrap]
  nth_rewrite 1 [hbase]
  rw [lt_wrap _ _ _ (by omega) (by omega)]
  rfl

/-- The acknowledgment of our SYN moves `SND.UNA` behind it. -/
theorem Handshaking.dataSegmentAcked {n : BitVec 32} {snd : Send} (h : Handshaking s)
    (hacked : s.snd.dataSegmentAcked (s.snd.initial.add 1) = .ok (n, snd)) :
    snd.initial = s.snd.initial ∧ snd.unsent = s.snd.unsent ∧ SendInv [] 0 snd := by
  have hnew := h.una_lt
  obtain ⟨⟨m, u⟩, hu, hpartial⟩ := bind_eq_ok.mp hacked
  rw [h.data] at hu
  cases hu
  dsimp only [Send.ackPartial] at hpartial
  rw [if_pos hnew] at hpartial
  obtain ⟨data, hdata, hrest⟩ := bind_eq_ok.mp hpartial
  cases hdata
  obtain ⟨v, hv, hret⟩ := bind_eq_ok.mp hrest
  cases hret
  rw [(sendKeeps_updateCwnd hv).2]
  refine ⟨rfl, rfl, rfl, ?_, Nat.zero_le _, ?_, ?_, ?_, ?_, ?_⟩
  · rw [h.next]
    exact (add_zero _).symm
  · simp [h.unsent]
  · simp [h.unsentLen, h.unsent, packetLen]
  · simp [h.space, h.unsent]
  · simp
  · simp [h.unsent, Sized]

/-- The segment that acknowledges our SYN opens the stream. -/
theorem Handshaking.ackEstablished {th : TcbHdr} {segSeq : TcpSeq} {p : Packet} {flow : Flow}
    (h : Handshaking s) (hack : th.ack = s.snd.initial.add 1)
    (hflow : (synAcked s).ackEstablished tso th segSeq p = .ok flow) :
    TcbInv s.snd.initial [] 0 (Flow.tcb flow) := by
  have hnew : ((synAcked s).snd.unacknowledged.lt th.ack && th.ack.le (synAcked s).snd.next) = true := by
    show (s.snd.unacknowledged.lt th.ack && th.ack.le s.snd.next) = true
    rw [hack, h.next, h.una_lt]
    simp [TcpSeq.le, TcpSeq.lt, TcpSeq.sub]
  unfold Tcb.ackEstablished at hflow
  rw [if_pos hnew] at hflow
  obtain ⟨u, hu, hret⟩ := bind_eq_ok.mp hflow
  cases hret
  obtain ⟨⟨n, snd⟩, hacked, hrest⟩ := bind_eq_ok.mp hu
  rw [hack] at hacked
  obtain ⟨hinit, hunsent, hinv⟩ := h.dataSegmentAcked hacked
  have hbase : TcbInv s.snd.initial [] 0 { synAcked s with snd := snd } := by
    refine ⟨hinit, ⟨0, hinv⟩, fun seg hseg hne => absurd (h.noPayload seg hseg) hne, ?_⟩
    show snd.unsent.flatten.length ≤ 0
    rw [hunsent, h.unsent]
    exact Nat.le_refl 0
  refine TcbInv.recoverFromAck ?_ ?_ hrest
  · split
    · exact hbase.same (.congr rfl) rfl
    · exact hbase
  · split
    · rfl
    · rfl

/-- The segment that acknowledges our SYN ends the handshake. -/
theorem Handshaking.handleSynchronized {th : TcbHdr} {segSeq : TcpSeq} {p : Packet}
    (h : Handshaking s) (hack : th.ack = s.snd.initial.add 1)
    (hseg : (synAcked s).handleSynchronized tso th segSeq p = .ok t) : Synchronized t := by
  have hinv : TcbInv s.snd.initial [] 0 t :=
    .of_ackEstablished (.inl rfl) (fun _ => h.ackEstablished hack) hseg
  have hstream : TcbInv t.snd.initial [] 0 t := by
    rw [hinv.initial]
    exact hinv
  rcases handleSynchronized_cases hseg (fun hst => nomatch hst) with hmoves | ⟨v, -, hfin⟩
  · refine ⟨?_, hmoves.calm.removed.trans h.live, hstream⟩
    have hadv := hmoves.state
    generalize t.state = b at hadv
    cases hadv with
    | stay => exact .inl rfl
    | fin => exact .inr rfl
  · rcases hfin with ⟨hst, -⟩ | ⟨hst, -⟩ | ⟨hst, -⟩
    all_goals cases hst

/-- A segment in SYN_RECEIVED. -/
theorem Handshaking.inputHandleOtherState {th : TcbHdr} {p : Packet} (h : Handshaking s)
    (hst : s.state = .synReceived) (hack : AcksOurSyn s th p)
    (hseg : s.inputHandleOtherState tso th p = .ok t) :
    GivenUp t ∨ Handshaking t ∨ Synchronized t := by
  have hin : s.inState [.synReceived] = true := by simp [Tcb.inState, hst]
  have hother : ∀ l, ¬TcpState.synReceived ∈ l → s.inState l = false := fun l hl => by
    simpa [Tcb.inState, hst] using hl
  obtain ⟨q, hq, ⟨-, rfl⟩ | ⟨hacc, segSeq, r, htrim, ⟨hseq, horder⟩ | ⟨-, rcv, -, rfl⟩⟩⟩ :=
    inputHandleOtherState_ok hseg
  · exact .inr (.inl h.output)
  · have hsequence : InSequence s th p r := ⟨q, hq, hacc, by rw [htrim, hseq]⟩
    unfold Tcb.handleInOrder at horder
    rw [hin, hother _ (by simp), hother _ (by simp)] at horder
    cases hrst : th.fRst with
    | true =>
      rw [hrst] at horder
      cases horder
      exact .inl ⟨rfl, rfl⟩
    | false =>
      cases hsyn : th.fSyn with
      | true =>
        rw [hrst, hsyn] at horder
        cases horder
        exact .inl ⟨rfl, rfl⟩
      | false =>
        cases hflag : th.fAck with
        | false =>
          rw [hrst, hsyn, hflag] at horder
          cases horder
          exact .inr (.inl h)
        | true =>
          rw [hrst, hsyn, hflag] at horder
          -- The number acknowledges our SYN, which is the hypothesis on the segment.
          have hne := hack hst ⟨r, hsequence⟩ hflag hrst hsyn
          replace horder : s.ackAndText tso th segSeq r = .ok t := horder
          unfold Tcb.ackAndText at horder
          rcases ackSynReceived_cases th.ack s with ⟨hnot, -⟩ | ⟨-, hnumber, hgo⟩ | ⟨-, -, hret⟩
          · exact absurd hst hnot
          · simp only [hgo] at horder
            obtain ⟨hle, hle'⟩ := Bool.and_eq_true _ _ |>.mp hnumber
            rw [h.una] at hle
            rw [h.next] at hle'
            exact .inr (.inr (h.handleSynchronized (ack_eq (lt_of_le_ne hle hne) hle') horder))
          · simp only [hret] at horder
            cases horder
            exact .inr (.inl h)
  · exact .inr (.inl (Handshaking.output (h.same rfl rfl rfl (.congr rfl) rfl)))

/-- A segment in SYN_SENT. -/
theorem Handshaking.inputHandleSynSentState {th : TcbHdr} {p : Packet} (h : Handshaking s)
    (hseg : s.inputHandleSynSentState th p = .ok t) :
    GivenUp t ∨ Handshaking t ∨ Synchronized t := by
  rcases inputHandleSynSentState_cases hseg with
    rfl | ⟨-, -, -, -, rfl⟩ | ⟨-, hack, ⟨hlt, options, rfl⟩ | ⟨hnot, rfl⟩⟩
  · exact .inr (.inl h)
  · exact .inl ⟨rfl, rfl⟩
  · -- Our SYN is acknowledged.
    have hacked : (synAnswered th s).snd.unacknowledged = s.snd.initial.add 1 := by
      unfold synAnswered at hlt ⊢
      dsimp only at hlt ⊢
      split at hlt
      · rename_i hflag
        rw [if_pos hflag]
        exact ack_eq hlt (h.next ▸ (hack hflag).2)
      · rw [h.una] at hlt
        simp [TcpSeq.lt, TcpSeq.sub] at hlt
    have hinv : TcbInv s.snd.initial [] 0
        ((synAnswered th s).initFromOptions th options).doEstablished := by
      refine ⟨rfl, ⟨0, hacked, ?_, Nat.zero_le _, ?_, ?_, ?_, ?_, ?_⟩, ?_, ?_⟩
      · show s.snd.next = (synAnswered th s).snd.unacknowledged.add (dataBytes s.snd.data).length
        rw [hacked, h.next, h.data]
        exact (add_zero _).symm
      · show dataBytes s.snd.data ++ s.snd.unsent.flatten = []
        rw [h.data, h.unsent]
        rfl
      · show s.snd.unsentLen = packetLen s.snd.unsent.flatten
        rw [h.unsentLen, h.unsent]
        rfl
      · show s.snd.currentQueueSpace = s.snd.unsent.flatten.length + dataLens s.snd.data
        rw [h.space, h.unsent, h.data]
        rfl
      · show ∀ seg ∈ s.snd.data, Fits seg
        simp [h.data]
      · show Sized s.snd.unsent
        simp [h.unsent, Sized]
      · exact fun seg hseg hne => absurd (h.noPayload seg hseg) hne
      · show s.snd.unsent.flatten.length ≤ 0
        rw [h.unsent]
        exact Nat.le_refl 0
    refine .inr (.inr ⟨.inl (state_output _), (removed_output _).trans h.live, ?_⟩)
    rw [hinv.output.initial]
    exact hinv.output
  · -- Both sides opened the connection, and our SYN is still on its way.
    have hsame : (synAnswered th s).snd.unacknowledged = s.snd.unacknowledged := by
      unfold synAnswered at hnot ⊢
      dsimp only at hnot ⊢
      split at hnot
      · rename_i hflag
        rw [(hack hflag).1] at hnot
        cases hnot
      · rename_i hflag
        rw [if_neg hflag]
    have hbase : Handshaking { synAnswered th s with state := .synReceived } :=
      ⟨rfl, h.live, h.connected, hsame.trans h.una, h.next, h.data, h.unsent, h.unsentLen, h.space,
        h.noPayload⟩
    exact .inr (.inl hbase.output)

/-- A connection in the handshake that is cleaned up was never in ESTABLISHED. -/
theorem Handshaking.givenUp (h : Handshaking s) (hst : t.state = s.state) (hrem : t.removed = true) :
    GivenUp t := by
  refine ⟨hrem, ?_⟩
  have hsyn : s.state = .synSent ∨ s.state = .synReceived := by
    simpa [Tcb.synNeedsOn, Tcb.inState] using h.syn
  rcases hsyn with hsyn | hsyn
  · simp [Tcb.inState, hst, hsyn]
  · simp [Tcb.inState, hst, hsyn]

/-- One event other than `send` keeps the handshake, ends it, or removes the connection. -/
theorem Handshaking.handle {e : TcbEvent} {o : Option OutSegment} (h : Handshaking s)
    (hne : ∀ p, e ≠ .send p)
    (hack : ∀ th p, e = .segment th p → AcksOurSyn s th p)
    (hh : s.handle tso e = .ok (o, t)) :
    (∀ seg ∈ o, seg.payload = []) ∧ (GivenUp t ∨ Handshaking t ∨ Synchronized t) := by
  cases e with
  | segment th p =>
    obtain ⟨u, hu, heq⟩ := map_eq_ok.mp hh
    cases heq
    refine ⟨by simp, ?_⟩
    -- Only a segment can end the handshake: it is the one that acknowledges the SYN.
    unfold Tcb.inputHandle at hu
    split at hu
    · exact h.inputHandleSynSentState hu
    · rename_i hnot
      have hst : s.state = .synSent ∨ s.state = .synReceived := by
        simpa [Tcb.synNeedsOn, Tcb.inState] using h.syn
      exact h.inputHandleOtherState (hst.resolve_left hnot) (hack th p rfl) hu
  | send p => exact absurd rfl (hne p)
  | read | closeRead | arpQueueFull =>
    cases hh
    exact ⟨by simp, .inr (.inl (h.same rfl rfl rfl (.congr rfl) rfl))⟩
  | waitForData =>
    cases hh
    refine ⟨by simp, .inr (.inl ?_)⟩
    unfold Tcb.waitForData
    split
    · exact h
    · exact h.same rfl rfl rfl (.congr rfl) rfl
  | close =>
    cases hh
    refine ⟨by simp, .inr (.inl ?_)⟩
    unfold Tcb.close
    split
    · exact h
    · refine h.same rfl rfl rfl ?_ rfl
      show SameStream s.snd s.snd.waitForAllDataAcked
      unfold Send.waitForAllDataAcked
      split
      · exact .congr rfl
      · exact .congr rfl
  | shutdownConnect =>
    cases hh
    rw [Tcb.shutdownConnect, if_pos h.syn]
    exact ⟨by simp, .inl (h.givenUp rfl rfl)⟩
  | closeContinuation =>
    obtain ⟨u, hu, heq⟩ := map_eq_ok.mp hh
    cases heq
    obtain ⟨v, hv, hret⟩ := bind_eq_ok.mp hu
    cases hret
    rw [closedState_eq] at hv
    refine ⟨by simp, .inr (.inl (Handshaking.output (Handshaking.outputOne ?_ hv)))⟩
    exact h.same (closedState_of_syn h.syn) rfl rfl (.congr rfl) rfl
  | getPacket =>
    obtain ⟨u, hu, hrest⟩ := getPacket_ok hh
    have hbase : Handshaking { s with pollActive := false, pollRequested := false } :=
      h.same rfl rfl rfl (.congr rfl) rfl
    have hmade : Handshaking u := by
      rcases hu with ⟨-, hu⟩ | ⟨-, rfl⟩
      · exact hbase.outputOne hu
      · exact hbase
    -- A segment from the queue was made earlier, and `noPayload` says that it has no data.
    rcases hrest with ⟨-, rfl, rfl⟩ | ⟨seg, rest, hq, rfl, rfl⟩
    · exact ⟨by simp, .inr (.inl hmade)⟩
    · have hpop : Handshaking { u with packetq := rest } :=
        ⟨hmade.syn, hmade.live, hmade.connected, hmade.una, hmade.next, hmade.data, hmade.unsent,
          hmade.unsentLen, hmade.space, fun seg' hseg' => hmade.noPayload seg' (by simp [hq, hseg'])⟩
      refine ⟨fun seg' hseg' => ?_, .inr (.inl hpop.pollAgain)⟩
      cases hseg'
      exact hmade.noPayload seg (by simp [hq])
  | arpTimeout =>
    cases hh
    unfold Tcb.arpTimeout
    dsimp only
    split
    · exact ⟨by simp, .inl (h.givenUp rfl rfl)⟩
    · exact ⟨by simp, .inr (.inl (h.same rfl rfl rfl (.congr rfl) rfl))⟩
  | retransmit =>
    obtain ⟨u, hu, heq⟩ := map_eq_ok.mp hh
    cases heq
    refine ⟨by simp, ?_⟩
    -- The SYN goes out again until its limit is reached, and then the connection is given up.
    rw [Tcb.retransmit, if_pos (by exact h.syn)] at hu
    dsimp only at hu
    split at hu
    · have hcount : Handshaking { s with
          retransmitArmed := false
          snd := { s.snd with synRetransmit := s.snd.synRetransmit + 1 } } := h.same rfl rfl rfl (.congr rfl) rfl
      have hsent : Handshaking (Tcb.outputUpdateRto { s with
          retransmitArmed := false
          snd := { s.snd with synRetransmit := s.snd.synRetransmit + 1 } }) :=
        hcount.output.same rfl rfl rfl (.congr rfl) rfl
      rw [hsent.retransmitFinData] at hu
      cases hu
      exact .inr (.inl hsent)
    · cases hu
      exact .inl (h.givenUp rfl rfl)
  | persist =>
    obtain ⟨u, hu, heq⟩ := map_eq_ok.mp hh
    cases heq
    obtain ⟨v, hv, hret⟩ := bind_eq_ok.mp hu
    cases hret
    have hprobe : Handshaking v := Handshaking.outputOne (by exact h.same rfl rfl rfl (.congr rfl) rfl) hv
    have hdone : Handshaking { v with snd := { v.snd with windowProbe := false } } :=
      hprobe.same rfl rfl rfl (.congr rfl) rfl
    exact ⟨by simp, .inr (.inl (hdone.output.same rfl rfl rfl (.congr rfl) rfl))⟩
  | delayedAck =>
    cases hh
    exact ⟨by simp, .inr (.inl (Handshaking.output (h.same rfl rfl rfl (.congr rfl) rfl)))⟩

end

/-- The session of a connection in the handshake. -/
structure Opening (s : Session) : Prop where
  tcb : Handshaking s.tcb
  running : s.fault = none
  noPayload : ∀ seg ∈ s.emitted, seg.payload = []
  sent : s.sent = []

/-- A connection that a listener opened is opening. -/
theorem opening_of_passiveOpen {th : TcbHdr} {s : Session} (h : Session.PassiveOpen th s) :
    Opening s := by
  obtain ⟨g, p, isn, t, ht, rfl⟩ := h
  obtain ⟨options, -, hret⟩ := bind_eq_ok.mp ht
  cases hret
  refine ⟨?_, rfl, by simp, rfl⟩
  dsimp only [Tcb.doSynReceived]
  exact Handshaking.output
    ⟨rfl, rfl, rfl, rfl, rfl, rfl, rfl, rfl, rfl, by simp [Tcb.initFromOptions, Tcb.doSetupIsn, Tcb.create]⟩

/-- A connection that `connect` opened is opening. -/
theorem opening_of_activeOpen {s : Session} (h : Session.ActiveOpen s) : Opening s := by
  obtain ⟨g, isn, rfl⟩ := h
  refine ⟨?_, rfl, by simp, rfl⟩
  dsimp only [Tcb.connect, Tcb.doSynSent]
  exact Handshaking.output
    ⟨rfl, rfl, rfl, rfl, rfl, rfl, rfl, rfl, rfl, by simp [Tcb.doSetupIsn, Tcb.create]⟩

/-- A new connection. -/
theorem opening_of_open {s : Session}
    (hopen : (∃ th, Session.PassiveOpen th s) ∨ Session.ActiveOpen s) : Opening s := by
  rcases hopen with ⟨th, h⟩ | h
  · exact opening_of_passiveOpen h
  · exact opening_of_activeOpen h

/-- A connection behind the handshake that has sent nothing is just established. -/
theorem Synchronized.justEstablished {s : Session} (h : Synchronized s.tcb) (hrun : s.fault = none)
    (hemitted : ∀ seg ∈ s.emitted, seg.payload = []) (hsent : s.sent = []) : JustEstablished s := by
  obtain ⟨-, ⟨k, hk⟩, hqueued, -⟩ := h.stream
  have hzero : k = 0 := Nat.le_zero.mp hk.le
  subst hzero
  obtain ⟨hbytes, hunsent⟩ := List.append_eq_nil_iff.mp hk.bytes
  have hdata := eq_nil_of_dataBytes hbytes hk.fits
  refine ⟨h.state, h.live, hrun, hk.una, ?_, hdata, hunsent, ?_, ?_, ?_, hsent⟩
  · rw [hk.next, hk.una, hdata]
    exact add_zero _
  · rw [hk.unsentLen, hunsent]
    rfl
  · rw [hk.space, hunsent, hdata]
    rfl
  · intro seg hseg
    rcases List.mem_append.mp hseg with hseg | hseg
    · exact hemitted seg hseg
    · -- A payload would carry bytes of the empty stream.
      by_contra hne
      obtain ⟨k, -, -, hpre⟩ := hqueued seg hseg hne
      exact hne (List.prefix_nil.mp (by simpa using hpre))

/-- A handshake in which the application sends nothing ends with the transfer of data, if the segment
that ends it acknowledges our SYN. -/
theorem Opening.step {s t : Session} {tso : Bool} {e : TcbEvent} (h : Opening s)
    (hne : ∀ p, e ≠ .send p)
    (hack : ∀ th p, e = .segment th p → AcksOurSyn s.tcb th p) (hstep : s.step tso e = some t) :
    (∃ f, t = { s with fault := some f }) ∨ GivenUp t.tcb ∨ Opening t ∨ JustEstablished t := by
  obtain ⟨-, -, ⟨f, -, rfl⟩ | ⟨o, u, hu, rfl⟩⟩ := step_cases hstep
  · exact .inl ⟨f, rfl⟩
  · obtain ⟨hpayload, hnext⟩ := h.tcb.handle hne hack hu
    have hemitted : ∀ seg ∈ s.emitted ++ o.toList, seg.payload = [] := by
      intro seg hseg
      rcases List.mem_append.mp hseg with hseg | hseg
      · exact h.noPayload seg hseg
      · exact hpayload seg (by simpa using hseg)
    have hnone : s.accepts e = [] := by
      cases e <;> first | rfl | exact absurd rfl (hne _)
    have hsent : s.sent ++ s.accepts e = [] := by simp [hnone, h.sent]
    rcases hnext with hremoved | hopen | hsync
    · exact .inr (.inl hremoved)
    · exact .inr (.inr (.inl ⟨hopen, h.running, hemitted, hsent⟩))
    · exact .inr (.inr (.inr (hsync.justEstablished h.running hemitted hsent)))

end Netstar.Proofs.Net
