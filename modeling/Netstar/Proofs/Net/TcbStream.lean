import Netstar.Proofs.Net.TcbSend

/-!
# `Netstar.Proofs.Net.TcbStream`: what a connection sends in a run

`TcbInv` from `Netstar.Proofs.Net.TcbSend` holds in ESTABLISHED and CLOSE_WAIT until the connection
leaves `_tcbs`. This file takes it through the events of a run, whatever the peer sends.
-/

set_option autoImplicit false

namespace Netstar.Proofs.Net

open Netstar.Lib
open Netstar.Spec.Net

/-- The connection is in ESTABLISHED or CLOSE_WAIT and was not cleaned up. -/
def Transfers (s : Tcb) : Prop := (s.state = .established ∨ s.state = .closeWait) ∧ s.removed = false

section
variable {iss : TcpSeq} {stream : List UInt8} {n : Nat} {s t : Tcb} {tso : Bool}

/-- While data flows our SYN is acknowledged. -/
theorem synNeedsOn_of_transfers (h : s.state = .established ∨ s.state = .closeWait) :
    s.synNeedsOn = false := by
  rcases h with h | h
  · simp [Tcb.synNeedsOn, Tcb.inState, h]
  · simp [Tcb.synNeedsOn, Tcb.inState, h]

/-- While data flows no FIN of ours is sent. -/
theorem finNeedsOn_of_transfers (h : s.state = .established ∨ s.state = .closeWait) :
    s.finNeedsOn = false := by
  rcases h with h | h
  · simp [Tcb.finNeedsOn, Tcb.inState, h]
  · simp [Tcb.finNeedsOn, Tcb.inState, h]

/-! ### Segments -/

/-- Deciding about an acknowledgment leaves the send side alone. -/
theorem shouldSendAck_send (n : BitVec 16) (s : Tcb) :
    (s.shouldSendAck n).2.snd = s.snd ∧ (s.shouldSendAck n).2.packetq = s.packetq := by
  simp only [Tcb.shouldSendAck]
  split
  · exact ⟨rfl, rfl⟩
  · split
    · exact ⟨rfl, rfl⟩
    · split
      · exact ⟨rfl, rfl⟩
      · exact ⟨rfl, rfl⟩

/-- The text of a segment leaves the send side alone. -/
theorem snd_takeText {p : Packet} {b : Bool} (h : s.takeText p = .ok (b, t)) :
    t.snd = s.snd ∧ t.packetq = s.packetq := by
  unfold Tcb.takeText at h
  split at h
  · obtain ⟨⟨merged, rcv⟩, -, hrest⟩ := bind_eq_ok.mp h
    have hres : _ = t := congrArg Prod.snd (Except.ok.inj hrest)
    rw [← hres]
    cases merged with
    | true => exact ⟨rfl, rfl⟩
    | false => exact shouldSendAck_send _ _
  · cases h
    exact ⟨rfl, rfl⟩

/-- Taking a FIN keeps the invariant, unless it is the one that ends FIN_WAIT_2. -/
theorem TcbInv.takeFin (h : TcbInv iss stream n s) (hfw : s.state ≠ .finWait2) (finSeq : TcpSeq)
    (doOutput doOutputData : Bool) : TcbInv iss stream n (s.takeFin finSeq doOutput doOutputData) := by
  have hfin : TcbInv iss stream n (finReceived finSeq s) :=
    (h.same (t := Tcb.clearDelayedAck
      (Tcb.signalDataReceived { s with rcv := { s.rcv with next := finSeq.add 1 } })) (.congr rfl) rfl).output
  have hstate : (finReceived finSeq s).state = s.state := (calm_finReceived finSeq s).2
  have hmove : ∀ st, TcbInv iss stream n { finReceived finSeq s with state := st } := fun st =>
    hfin.same (.congr rfl) rfl
  unfold Tcb.takeFin
  split
  · exact h
  · split
    · dsimp only
      split
      · exact (hmove .closeWait).finishInput false doOutputData
      · split
        · exact (hmove .closing).finishInput false doOutputData
        · split
          · rename_i hin
            have hst : (finReceived finSeq s).state = .finWait2 :=
              List.mem_singleton.mp (List.contains_iff_mem.mp hin)
            exact absurd (hstate ▸ hst) hfw
          · exact hfin.finishInput false doOutputData
    · exact h.finishInput doOutput doOutputData

/-- The text and the FIN of a segment keep the invariant. -/
theorem TcbInv.textAndFin {th : TcbHdr} {segSeq : TcpSeq} {p : Packet} {d : Bool}
    (h : TcbInv iss stream n s) (hfw : s.state ≠ .finWait2)
    (htext : s.textAndFin th segSeq p d = .ok t) : TcbInv iss stream n t := by
  unfold Tcb.textAndFin at htext
  split at htext
  · cases htext
    exact h
  · obtain ⟨⟨doOutput, u⟩, hu, hrest⟩ := bind_eq_ok.mp htext
    have hinv : TcbInv iss stream n u ∧ u.state = s.state := by
      split at hu
      · obtain ⟨hsnd, hq⟩ := snd_takeText hu
        exact ⟨h.same (hsnd ▸ .refl _) hq, (calm_takeText hu).2⟩
      · cases hu
        exact ⟨h, rfl⟩
    rw [← Except.ok.inj hrest]
    split
    · exact hinv.1.takeFin (hinv.2 ▸ hfw) _ doOutput d
    · exact hinv.1.finishInput doOutput d

/-- Behind the acknowledgment of data, the invariant of the send side is kept. -/
theorem TcbInv.of_ackEstablished {th : TcbHdr} {segSeq : TcpSeq} {p : Packet}
    (hst : s.state = .established ∨ s.state = .closeWait)
    (hinv : ∀ flow, s.ackEstablished tso th segSeq p = .ok flow →
      TcbInv iss stream n (Flow.tcb flow))
    (hseg : s.handleSynchronized tso th segSeq p = .ok t) : TcbInv iss stream n t := by
  obtain ⟨flow, hflow, hrest⟩ := bind_eq_ok.mp hseg
  have hin : s.inState [.established, .closeWait] = true := by
    rcases hst with hst | hst
    · simp [Tcb.inState, hst]
    · simp [Tcb.inState, hst]
  rw [if_pos hin] at hflow
  have hstate := (keeps_ackEstablished hflow).state
  cases flow with
  | ret v =>
    cases hrest
    exact hinv _ hflow
  | go v d =>
    -- Our FIN was not sent in these states, so its acknowledgment changes nothing.
    have hst' : v.state = .established ∨ v.state = .closeWait := hstate ▸ hst
    have hgo : v.ackFin th.ack d = .go v d := by
      rcases hst' with hv | hv
      · simp [Tcb.ackFin, Tcb.inState, hv]
      · simp [Tcb.ackFin, Tcb.inState, hv]
    simp only [hgo] at hrest
    refine TcbInv.textAndFin (hinv _ hflow) ?_ hrest
    rcases hst' with hv | hv
    · simp [Flow.tcb, hv]
    · simp [Flow.tcb, hv]

/-- A segment keeps the invariant while data flows. -/
theorem TcbInv.handleSynchronized {th : TcbHdr} {segSeq : TcpSeq} {p : Packet}
    (h : TcbInv iss stream n s) (hst : s.state = .established ∨ s.state = .closeWait)
    (hseg : s.handleSynchronized tso th segSeq p = .ok t) : TcbInv iss stream n t :=
  .of_ackEstablished hst (fun _ => h.ackEstablished (synNeedsOn_of_transfers hst)) hseg

/-- A segment that does not end the transfer keeps the invariant. -/
theorem TcbInv.inputHandleOtherState {th : TcbHdr} {p : Packet} (h : TcbInv iss stream n s)
    (hst : s.state = .established ∨ s.state = .closeWait)
    (hseg : s.inputHandleOtherState tso th p = .ok t) (hlive : t.removed = false) :
    TcbInv iss stream n t := by
  obtain ⟨q, -, ⟨-, rfl⟩ | ⟨-, segSeq, r, -, ⟨-, hin⟩ | ⟨-, rcv, -, rfl⟩⟩⟩ :=
    inputHandleOtherState_ok hseg
  · exact h.output
  · rcases handleInOrder_cases hin with
      ⟨-, -, rfl⟩ | ⟨-, -, rfl⟩ | ⟨-, -, rfl⟩ | ⟨-, rfl⟩ | rfl | ⟨-, hack⟩
    -- A reset removes the connection.
    · cases hlive
    · cases hlive
    · cases hlive
    · cases hlive
    · exact h
    · have hsyn : s.ackSynReceived th.ack = .go s false := by
        rcases hst with hst | hst
        · simp [Tcb.ackSynReceived, Tcb.inState, hst]
        · simp [Tcb.ackSynReceived, Tcb.inState, hst]
      simp only [Tcb.ackAndText, hsyn] at hack
      exact h.handleSynchronized hst hack
  · exact TcbInv.output (h.same (.congr rfl) rfl)

/-! ### The user, the timers and the device -/

/-- The packet joins the stream at its end. -/
theorem TcbInv.send {p : Packet} (h : TcbInv iss stream n s) (hsized : p.length < 2 ^ 32) :
    let accepted := if s.refusesSend then [] else p
    TcbInv iss (stream ++ accepted) (n + accepted.length) (s.send p) := by
  intro accepted
  rcases send_cases s p with ⟨hrefuse, heq⟩ | ⟨haccept, u, -, hu, heq⟩
  · have hnone : accepted = [] := if_pos hrefuse
    rw [heq, hnone, List.append_nil]
    exact h
  · have hall : accepted = p := if_neg (by simp [haccept])
    rw [heq, hall]
    have hflat : (s.snd.unsent ++ [p]).flatten = s.snd.unsent.flatten ++ p := by simp
    -- The packet stands in the queue. What follows only sends and answers, which keeps the stream.
    have henqueue : TcbInv iss (stream ++ p) (n + p.length) (s.enqueue p) := by
      obtain ⟨k, hk⟩ := h.snd
      refine ⟨h.initial, ⟨k, ?_⟩, fun seg hseg => (h.queued seg hseg).extend p, ?_⟩
      swap
      · show (s.snd.unsent ++ [p]).flatten.length ≤ n + p.length
        have := h.unsent
        rw [hflat, List.length_append]
        omega
      refine ⟨hk.una, hk.next, ?_, ?_, ?_, ?_, hk.fits, ?_⟩
      · have := hk.le
        rw [List.length_append]
        omega
      · show dataBytes s.snd.data ++ (s.snd.unsent ++ [p]).flatten = _
        rw [hflat, ← List.append_assoc, hk.bytes, List.drop_append_of_le_length hk.le]
      · show s.snd.unsentLen + packetLen p = packetLen (s.snd.unsent ++ [p]).flatten
        rw [hflat, packetLen_append, hk.unsentLen]
      · show s.snd.currentQueueSpace + p.length = (s.snd.unsent ++ [p]).flatten.length + dataLens s.snd.data
        have := hk.space
        rw [hflat, List.length_append]
        omega
      · intro q hq
        rcases List.mem_append.mp hq with hq | hq
        · exact hk.sized q hq
        · rw [List.mem_singleton.mp hq]
          exact hsized
    -- `send` puts out a segment at once when nothing holds it back.
    have hsent : TcbInv iss (stream ++ p) (n + p.length) u := by
      rcases hu with rfl | rfl
      · exact henqueue.canSend
      · exact henqueue.canSend.output
    refine hsent.same ?_ rfl
    show SameStream u.snd u.snd.waitSendAvailable
    unfold Send.waitSendAvailable
    split
    · exact .refl _
    · exact .congr rfl

/-- `close` keeps the invariant. -/
theorem TcbInv.close (h : TcbInv iss stream n s) : TcbInv iss stream n s.close := by
  unfold Tcb.close
  split
  · exact h
  · refine h.same ?_ rfl
    show SameStream s.snd s.snd.waitForAllDataAcked
    unfold Send.waitForAllDataAcked
    split
    · exact .congr rfl
    · exact .congr rfl

/-- Polling again keeps the invariant. -/
theorem TcbInv.pollAgain (h : TcbInv iss stream n s) : TcbInv iss stream n s.pollAgain := by
  unfold Tcb.pollAgain
  split
  · exact h.output
  · split
    · dsimp only
      split
      · exact h.canSend.output
      · exact h.canSend
    · exact h

/-- `get_packet` hands out a segment that carries bytes of the stream. -/
theorem TcbInv.getPacket {o : Option OutSegment} (h : TcbInv iss stream n s)
    (hsyn : s.synNeedsOn = false) (hget : s.getPacket tso = .ok (o, t)) :
    TcbInv iss stream n t ∧ ∀ seg ∈ o, Carries iss stream seg := by
  obtain ⟨u, hu, hrest⟩ := getPacket_ok hget
  have hbase : TcbInv iss stream n { s with pollActive := false, pollRequested := false } :=
    h.same (.congr rfl) rfl
  have hinv : TcbInv iss stream n u := by
    rcases hu with ⟨-, hu⟩ | ⟨-, rfl⟩
    · exact hbase.outputOne hsyn hu
    · exact hbase
  rcases hrest with ⟨-, rfl, rfl⟩ | ⟨seg, rest, hq, rfl, rfl⟩
  · exact ⟨hinv, by simp⟩
  · have hpop : TcbInv iss stream n { u with packetq := rest } :=
      ⟨hinv.initial, hinv.snd, fun seg' hseg' => hinv.queued seg' (by simp [hq, hseg']), hinv.unsent⟩
    refine ⟨hpop.pollAgain, fun seg' hseg' => ?_⟩
    cases hseg'
    exact hinv.queued seg (by simp [hq])

/-- A window probe keeps the invariant. -/
theorem TcbInv.persist (h : TcbInv iss stream n s) (hsyn : s.synNeedsOn = false)
    (hpersist : s.persist tso = .ok t) : TcbInv iss stream n t := by
  obtain ⟨u, hu, hret⟩ := bind_eq_ok.mp hpersist
  cases hret
  have hprobe : TcbInv iss stream n u := TcbInv.outputOne (by exact h.same (.congr rfl) rfl) (by exact hsyn) hu
  have hdone : TcbInv iss stream n { u with snd := { u.snd with windowProbe := false } } :=
    hprobe.same (.congr rfl) rfl
  exact hdone.output.same (.congr rfl) rfl

/-- Arming the retransmission timer again keeps the invariant. -/
theorem TcbInv.outputUpdateRto (h : TcbInv iss stream n s) : TcbInv iss stream n s.outputUpdateRto :=
  h.output.same (.congr rfl) rfl

/-- A retransmission that does not give the connection up keeps the invariant. -/
theorem TcbInv.retransmit (h : TcbInv iss stream n s)
    (hst : s.state = .established ∨ s.state = .closeWait)
    (hret : s.retransmit tso = .ok t) (hlive : t.removed = false) : TcbInv iss stream n t := by
  have hsyn := synNeedsOn_of_transfers hst
  have hdata : s.retransmitData tso = .ok t := by
    simpa [Tcb.retransmit, Tcb.retransmitFinData, hsyn, finNeedsOn_of_transfers hst] using hret
  unfold Tcb.retransmitData at hdata
  split at hdata
  · cases hdata
    exact h
  · rename_i seg rest hseg
    dsimp only at hdata
    split at hdata
    · obtain ⟨u, hu, hdone⟩ := bind_eq_ok.mp hdata
      cases hdone
      have hcount := sameStream_countTransmit hseg
      have hslow : SameStream s.snd { Tcb.slowStart seg s.snd with
          data := { seg with nrTransmits := seg.nrTransmits + 1 } :: rest } :=
        ⟨rfl, rfl, rfl, hcount.bytes, hcount.lens, hcount.fits, rfl, rfl, rfl⟩
      exact (TcbInv.outputOne (by exact h.same hslow rfl) (by exact hsyn) hu).outputUpdateRto
    · cases hdata
      cases hlive

end

/-! ### Runs -/

/-- `close` ends the sending of data. -/
theorem closedState_ne (a : TcpState) :
    closedState a ≠ .established ∧ closedState a ≠ .closeWait := by
  cases a <;> simp [closedState]

/-- `close` does not go back to the handshake. -/
theorem closedState_synNeedsOn {a : TcpState} (h : a ≠ .synSent) (h' : a ≠ .synReceived) :
    closedState a ≠ .synSent ∧ closedState a ≠ .synReceived := by
  cases a <;> simp_all [closedState]

/-- Every event but `send` keeps the stream. -/
theorem TcbInv.handle_other {iss : TcpSeq} {stream : List UInt8} {n : Nat} {s t : Tcb} {tso : Bool}
    {e : TcbEvent} {o : Option OutSegment} (h : TcbInv iss stream n s)
    (hst : s.state = .established ∨ s.state = .closeWait) (hne : ∀ p, e ≠ .send p)
    (hh : s.handle tso e = .ok (o, t)) (ht : Transfers t) :
    TcbInv iss stream n t ∧ ∀ seg ∈ o, Carries iss stream seg := by
  have hsyn := synNeedsOn_of_transfers hst
  cases e with
  | segment th p =>
    obtain ⟨u, hu, heq⟩ := map_eq_ok.mp hh
    cases heq
    have hnot : s.state ≠ .synSent := by
      rcases hst with hst | hst
      · simp [hst]
      · simp [hst]
    rw [Tcb.inputHandle, if_neg hnot] at hu
    exact ⟨h.inputHandleOtherState hst hu ht.2, by simp⟩
  | send p => exact absurd rfl (hne p)
  | read | closeRead | arpQueueFull =>
    cases hh
    exact ⟨h.same (.congr rfl) rfl, by simp⟩
  | waitForData =>
    cases hh
    refine ⟨?_, by simp⟩
    unfold Tcb.waitForData
    split
    · exact h
    · exact h.same (.congr rfl) rfl
  | close =>
    cases hh
    exact ⟨h.close, by simp⟩
  | shutdownConnect =>
    cases hh
    rw [Tcb.shutdownConnect, if_neg (by simp [hsyn])]
    exact ⟨TcbInv.close (h.same (.congr rfl) rfl), by simp⟩
  | closeContinuation =>
    obtain ⟨u, hu, heq⟩ := map_eq_ok.mp hh
    cases heq
    -- The state after the close transfers no data, so `ht` rules this case out.
    have hstate : t.state = closedState s.state := (closeContinuation_cases hu).state
    rw [Transfers, hstate] at ht
    rcases ht.1 with h | h
    · exact absurd h (closedState_ne s.state).1
    · exact absurd h (closedState_ne s.state).2
  | getPacket =>
    exact h.getPacket hsyn hh
  | arpTimeout =>
    cases hh
    have hnot : Tcb.inState { s with pollRequested := false } [.synSent] = false := by
      rcases hst with hst | hst
      · simp [Tcb.inState, hst]
      · simp [Tcb.inState, hst]
    rw [Tcb.arpTimeout, if_neg (by simp [hnot])]
    exact ⟨h.same (.congr rfl) rfl, by simp⟩
  | retransmit =>
    obtain ⟨u, hu, heq⟩ := map_eq_ok.mp hh
    cases heq
    exact ⟨TcbInv.retransmit (by exact h.same (.congr rfl) rfl) (by exact hst) hu ht.2, by simp⟩
  | persist =>
    obtain ⟨u, hu, heq⟩ := map_eq_ok.mp hh
    cases heq
    exact ⟨TcbInv.persist (by exact h.same (.congr rfl) rfl) (by exact hsyn) hu, by simp⟩
  | delayedAck =>
    cases hh
    exact ⟨TcbInv.output (h.same (.congr rfl) rfl), by simp⟩

/-- The bytes that `send` accepts in an event belong to the stream afterwards. -/
theorem TcbInv.handle {iss : TcpSeq} {n : Nat} {s : Session} {tso : Bool} {e : TcbEvent}
    {o : Option OutSegment} {t : Tcb} (h : TcbInv iss s.sent n s.tcb)
    (hst : s.tcb.state = .established ∨ s.tcb.state = .closeWait)
    (hen : s.tcb.enabled e = true) (hh : s.tcb.handle tso e = .ok (o, t)) (ht : Transfers t) :
    TcbInv iss (s.sent ++ s.accepts e) (n + (s.accepts e).length) t ∧
      ∀ seg ∈ o, Carries iss (s.sent ++ s.accepts e) seg := by
  by_cases hsend : ∃ p, e = .send p
  · obtain ⟨p, rfl⟩ := hsend
    cases hh
    exact ⟨h.send (by simpa [Tcb.enabled] using hen), by simp⟩
  · have hne : ∀ p, e ≠ .send p := fun p hp => hsend ⟨p, hp⟩
    have hnone : s.accepts e = [] := by
      cases e <;> first | rfl | exact absurd rfl (hne _)
    rw [hnone, List.append_nil]
    exact h.handle_other hst hne hh ht

/-- The step neither goes back to the handshake nor brings back a transfer that has ended. -/
def Forward (s t : Tcb) : Prop := t.synNeedsOn = false ∧ (Transfers t → Transfers s)

/-- Our SYN is acknowledged in all states but two. -/
theorem synNeedsOn_eq_false {s : Tcb} :
    s.synNeedsOn = false ↔ s.state ≠ .synSent ∧ s.state ≠ .synReceived := by
  simp [Tcb.synNeedsOn, Tcb.inState]

section
variable {s t : Tcb} {tso : Bool}

/-- A connection that stays where it is goes forward. -/
theorem forward_of_eq (hs : s.synNeedsOn = false) (hst : t.state = s.state)
    (hrem : t.removed = s.removed) : Forward s t := by
  refine ⟨?_, fun ht => ⟨hst ▸ ht.1, hrem ▸ ht.2⟩⟩
  rw [synNeedsOn_eq_false, hst]
  exact synNeedsOn_eq_false.mp hs

/-- A step of the send side goes forward. -/
theorem Keeps.forward (h : Keeps s t) (hs : s.synNeedsOn = false) : Forward s t :=
  forward_of_eq hs h.state h.removed

/-- A connection that is removed goes forward. -/
theorem forward_of_removed (hst : t.synNeedsOn = false) (hrem : t.removed = true) : Forward s t :=
  ⟨hst, fun ht => absurd ht.2 (by simp [hrem])⟩

/-- An advance of the state goes forward. -/
theorem forward_of_advance (hs : s.synNeedsOn = false) (hcalm : Calm s t)
    (hadv : Advance s.state t.state) : Forward s t := by
  generalize hb : t.state = b at hadv
  generalize ha : s.state = a at hadv
  cases hadv with
  | stay => exact forward_of_eq hs (hb.trans ha.symm) hcalm.removed
  | fin =>
    refine ⟨by simp [synNeedsOn_eq_false, hb], fun ht => ⟨.inl ha, ?_⟩⟩
    rw [← hcalm.removed]
    exact ht.2
  | finAfterOurs | finAcked =>
    refine ⟨by simp [synNeedsOn_eq_false, hb], fun ht => ?_⟩
    rcases ht.1 with h | h
    · rw [hb] at h
      cases h
    · rw [hb] at h
      cases h

/-- A segment behind the handshake goes forward. -/
theorem inputHandleOtherState_forward {th : TcbHdr} {p : Packet} (hs : s.synNeedsOn = false)
    (h : s.inputHandleOtherState tso th p = .ok t) : Forward s t := by
  obtain ⟨q, -, ⟨-, rfl⟩ | ⟨-, segSeq, r, -, ⟨-, hin⟩ | ⟨-, rcv, -, rfl⟩⟩⟩ :=
    inputHandleOtherState_ok h
  · exact (keeps_output s).forward hs
  · rcases handleInOrder_cases hin with
      ⟨-, -, rfl⟩ | ⟨-, -, rfl⟩ | ⟨-, -, rfl⟩ | ⟨-, rfl⟩ | rfl | ⟨-, hack⟩
    · exact forward_of_removed rfl rfl
    · exact forward_of_removed rfl rfl
    · exact forward_of_removed rfl rfl
    · exact forward_of_removed rfl rfl
    · exact (Keeps.refl _).forward hs
    · have hnot := (synNeedsOn_eq_false.mp hs).2
      rcases ackSynReceived_cases th.ack s with ⟨-, hgo⟩ | ⟨hsyn, -⟩ | ⟨hsyn, -⟩
      · simp only [Tcb.ackAndText, hgo] at hack
        rcases handleSynchronized_cases hack hnot with
          hmoves | ⟨v, -, ⟨-, -, -, -, rfl⟩ | ⟨-, -, rfl⟩ | ⟨-, -, rfl⟩⟩
        · exact forward_of_advance hs hmoves.calm hmoves.state
        · exact forward_of_removed rfl rfl
        · exact forward_of_removed rfl rfl
        · exact forward_of_removed rfl rfl
      · exact absurd hsyn hnot
      · exact absurd hsyn hnot
  · have hout := keeps_output { s with rcv := rcv }
    exact forward_of_eq hs hout.state hout.removed

/-- `close` changes the state only when its continuation runs. -/
theorem close_state (s : Tcb) : s.close.state = s.state ∧ s.close.removed = s.removed := by
  unfold Tcb.close
  split
  · exact ⟨rfl, rfl⟩
  · exact ⟨rfl, rfl⟩

/-- Every event behind the handshake goes forward. -/
theorem handle_forward {e : TcbEvent} {o : Option OutSegment} (hs : s.synNeedsOn = false)
    (hh : s.handle tso e = .ok (o, t)) : Forward s t := by
  cases e with
  | segment th p =>
    obtain ⟨u, hu, heq⟩ := map_eq_ok.mp hh
    cases heq
    rw [Tcb.inputHandle, if_neg (synNeedsOn_eq_false.mp hs).1] at hu
    exact inputHandleOtherState_forward hs hu
  | send p =>
    cases hh
    rcases send_cases s p with ⟨-, heq⟩ | ⟨-, u, hkeeps, -, heq⟩
    · rw [heq]
      exact (Keeps.refl _).forward hs
    · rw [heq]
      exact forward_of_eq hs hkeeps.state hkeeps.removed
  | read | closeRead | arpQueueFull =>
    cases hh
    exact forward_of_eq hs rfl rfl
  | waitForData =>
    cases hh
    unfold Tcb.waitForData
    split
    · exact forward_of_eq hs rfl rfl
    · exact forward_of_eq hs rfl rfl
  | close =>
    cases hh
    exact forward_of_eq hs (close_state s).1 (close_state s).2
  | shutdownConnect =>
    cases hh
    rw [Tcb.shutdownConnect, if_neg (by simp [hs])]
    exact forward_of_eq hs (close_state _).1 (close_state _).2
  | closeContinuation =>
    obtain ⟨u, hu, heq⟩ := map_eq_ok.mp hh
    cases heq
    have hkeeps := closeContinuation_cases hu
    have hst : t.state = closedState s.state := hkeeps.state
    -- The close leaves the states in which data is transferred, and no close leads back to them.
    obtain ⟨hne, hne'⟩ := synNeedsOn_eq_false.mp hs
    rw [Forward, synNeedsOn_eq_false, Transfers, hst]
    refine ⟨closedState_synNeedsOn hne hne', fun ht => ?_⟩
    rcases ht.1 with h | h
    · exact absurd h (closedState_ne s.state).1
    · exact absurd h (closedState_ne s.state).2
  | getPacket => exact (keeps_getPacket hh).forward hs
  | arpTimeout =>
    cases hh
    have hnot : Tcb.inState { s with pollRequested := false } [.synSent] = false := by
      simpa [Tcb.inState] using (synNeedsOn_eq_false.mp hs).1
    rw [Tcb.arpTimeout, if_neg (by simp [hnot])]
    exact forward_of_eq hs rfl rfl
  | retransmit =>
    obtain ⟨u, hu, heq⟩ := map_eq_ok.mp hh
    cases heq
    rcases retransmit_cases hu with hkeeps | ⟨⟨hsyn, -⟩, -⟩ | ⟨-, v, hkeeps, rfl⟩
    · exact forward_of_eq hs hkeeps.state hkeeps.removed
    -- The limit for the SYN applies in the handshake only, and that is over.
    · exact absurd hsyn (by exact Bool.eq_false_iff.mp hs)
    · refine forward_of_removed ?_ rfl
      rw [synNeedsOn_eq_false]
      show v.state ≠ .synSent ∧ v.state ≠ .synReceived
      rw [hkeeps.state]
      exact synNeedsOn_eq_false.mp hs
  | persist =>
    obtain ⟨u, hu, heq⟩ := map_eq_ok.mp hh
    cases heq
    have hkeeps := keeps_persist hu
    exact forward_of_eq hs hkeeps.state hkeeps.removed
  | delayedAck =>
    cases hh
    have hkeeps := keeps_delayedAck { s with delayedAckArmed := false }
    exact forward_of_eq hs hkeeps.state hkeeps.removed

end

/-- The connection just left the handshake and has sent and accepted nothing. -/
structure JustEstablished (s : Session) : Prop where
  state : s.tcb.state = .established ∨ s.tcb.state = .closeWait
  live : s.tcb.removed = false
  running : s.fault = none
  una : s.tcb.snd.unacknowledged = s.tcb.snd.initial.add 1
  next : s.tcb.snd.next = s.tcb.snd.initial.add 1
  data : s.tcb.snd.data = []
  unsent : s.tcb.snd.unsent.flatten = []
  unsentLen : s.tcb.snd.unsentLen = 0
  space : s.tcb.snd.currentQueueSpace = 0
  noPayload : ∀ seg ∈ s.emitted ++ s.tcb.packetq, seg.payload = []
  sent : s.sent = []

/-- The send side holds the rest of the stream from `SND.UNA` on, its counters agree with it, and
every segment that was queued so far carries bytes of the stream. -/
structure FollowsStream (s : Session) : Prop where
  next : s.tcb.snd.next = s.tcb.snd.unacknowledged.add (dataBytes s.tcb.snd.data).length
  bytes : ∃ k ≤ s.sent.length, s.tcb.snd.unacknowledged = s.tcb.snd.initial.add (1 + k : Nat) ∧
    dataBytes s.tcb.snd.data ++ s.tcb.snd.unsent.flatten = s.sent.drop k
  segments : ∀ seg ∈ s.emitted ++ s.tcb.packetq, Carries s.tcb.snd.initial s.sent seg
  unsentLen : s.tcb.snd.unsentLen.toNat = s.tcb.snd.unsent.flatten.length
  space : s.tcb.snd.currentQueueSpace = s.tcb.snd.unsentLen.toNat + dataLens s.tcb.snd.data

/-- A `send` that is accepted in a transfer leaves fewer than `2^32` bytes unsent. -/
def SendFits (s : Session) : TcbEvent → Prop
  | .send p => Transfers s.tcb → s.tcb.refusesSend = false →
    s.tcb.snd.unsent.flatten.length + p.length < 2 ^ 32
  | _ => True

/-- The invariant of a run after the handshake. It holds whatever the counters of the send side do. -/
structure StreamInv (iss : TcpSeq) (s : Session) : Prop where
  synchronized : s.tcb.synNeedsOn = false
  tcb : Transfers s.tcb → TcbInv iss s.sent s.tcb.snd.unsent.flatten.length s.tcb
  emitted : Transfers s.tcb → ∀ seg ∈ s.emitted, Carries iss s.sent seg

section
variable {iss : TcpSeq} {s t : Session} {tso : Bool} {e : TcbEvent}

/-- A connection just established meets the invariant of the stream. -/
theorem JustEstablished.streamInv (h : JustEstablished s) : StreamInv s.tcb.snd.initial s where
  synchronized := synNeedsOn_of_transfers h.state
  tcb := by
    intro _
    refine ⟨rfl, ⟨0, ?_⟩, ?_, Nat.le_refl _⟩
    · refine ⟨h.una, ?_, Nat.zero_le _, ?_, ?_, ?_, ?_, ?_⟩
      · rw [h.next, h.una, h.data]
        simp
      · simp [h.data, h.unsent, h.sent]
      · simp [h.unsentLen, h.unsent, packetLen]
      · simp [h.space, h.unsent, h.data]
      · simp [h.data]
      · intro q hq
        rw [List.flatten_eq_nil_iff.mp h.unsent q hq]
        decide
    · intro seg hseg hne
      exact absurd (h.noPayload seg (by simp [hseg])) hne
  emitted := by
    intro _ seg hseg hne
    exact absurd (h.noPayload seg (by simp [hseg])) hne

/-- A step stops the program, or it handles its event. -/
theorem step_cases (h : s.step tso e = some t) :
    s.fault = none ∧ s.tcb.enabled e = true ∧
      ((∃ f, s.tcb.handle tso e = .error f ∧ t = { s with fault := some f }) ∨
        ∃ o u, s.tcb.handle tso e = .ok (o, u) ∧
          t = { s with
            tcb := u
            sent := s.sent ++ s.accepts e
            received := s.received ++ s.returns e
            emitted := s.emitted ++ o.toList }) := by
  unfold Session.step at h
  split at h
  · rename_i hen
    refine ⟨hen.1, hen.2, ?_⟩
    split at h
    · rename_i f hf
      cases h
      exact .inl ⟨f, hf, rfl⟩
    · rename_i o u hu
      cases h
      exact .inr ⟨o, u, hu, rfl⟩
  · cases h

/-- One step keeps the invariant. The unsent bytes grow by what `send` accepts at most. -/
theorem StreamInv.step (h : StreamInv iss s) (hstep : s.step tso e = some t) :
    StreamInv iss t ∧ (Transfers t.tcb → Transfers s.tcb ∧
      t.tcb.snd.unsent.flatten.length
        ≤ s.tcb.snd.unsent.flatten.length + (s.accepts e).length) := by
  obtain ⟨-, hen, ⟨f, -, rfl⟩ | ⟨o, u, hu, rfl⟩⟩ := step_cases hstep
  · exact ⟨⟨h.synchronized, h.tcb, h.emitted⟩, fun ht => ⟨ht, Nat.le_add_right _ _⟩⟩
  · obtain ⟨hsyn, hback⟩ := handle_forward h.synchronized hu
    have hnext : Transfers u → _ := fun ht =>
      (h.tcb (hback ht)).handle (hback ht).1 hen hu ht
    refine ⟨⟨hsyn, fun ht => ?_, fun ht seg hseg => ?_⟩, fun ht => ⟨hback ht, (hnext ht).1.unsent⟩⟩
    · obtain ⟨hinit, hsnd, hqueued, -⟩ := (hnext ht).1
      exact ⟨hinit, hsnd, hqueued, Nat.le_refl _⟩
    · rcases List.mem_append.mp hseg with hseg | hseg
      · exact (h.emitted (hback ht) seg hseg).extend _
      · exact (hnext ht).2 seg (by simpa using hseg)

/-- Under the invariant only the width of `unsent_len` is left to ask for. -/
theorem StreamInv.followsStream_iff (h : StreamInv iss s) (ht : Transfers s.tcb) :
    FollowsStream s ↔ s.tcb.snd.unsent.flatten.length < 2 ^ 32 := by
  obtain ⟨hinit, ⟨k, hk⟩, hqueued, -⟩ := h.tcb ht
  constructor
  · intro hfollows
    rw [← hfollows.unsentLen]
    exact s.tcb.snd.unsentLen.isLt
  · intro hlt
    have hlen : s.tcb.snd.unsentLen.toNat = s.tcb.snd.unsent.flatten.length := by
      rw [hk.unsentLen, toNat_packetLen hlt]
    refine ⟨hk.next, ⟨k, hk.le, hk.una, hk.bytes⟩, fun seg hseg => ?_, hlen, by rw [hlen, hk.space]⟩
    rw [hinit]
    rcases List.mem_append.mp hseg with hseg | hseg
    · exact h.emitted ht seg hseg
    · exact hqueued seg hseg

/-- An accepted `send` adds its packet to the unsent bytes and keeps the state. The next one is
accepted as well. -/
theorem send_accepted {u : Tcb} (p : Packet) (haccept : u.refusesSend = false) :
    (u.send p).snd.unsent.flatten.length = u.snd.unsent.flatten.length + p.length ∧
      (u.send p).state = u.state ∧ (u.send p).removed = u.removed ∧
      (u.send p).refusesSend = false := by
  rcases send_cases u p with ⟨hrefuse, -⟩ | ⟨-, v, hkeeps, hv, heq⟩
  · rw [haccept] at hrefuse
    cases hrefuse
  · have hunsent : v.snd.unsent = u.snd.unsent ++ [p] := by
      obtain ⟨x, hx⟩ := canSend_eq (u.enqueue p).snd
      have hsend : (u.enqueue p).canSend.2.snd.unsent = u.snd.unsent ++ [p] := by
        show (u.enqueue p).snd.canSend.2.unsent = _
        rw [hx]
        rfl
      rcases hv with rfl | rfl
      · exact hsend
      · rw [snd_output]
        exact hsend
    obtain ⟨b, hwait⟩ : ∃ b, v.snd.waitSendAvailable = { v.snd with sendAvailablePromise := b } := by
      unfold Send.waitSendAvailable
      split
      · exact ⟨_, rfl⟩
      · exact ⟨_, rfl⟩
    rw [heq, hwait]
    refine ⟨?_, hkeeps.state, hkeeps.removed, ?_⟩
    · show v.snd.unsent.flatten.length = _
      rw [hunsent]
      simp
    · show (v.snd.closed || [TcpState.closed].contains v.state) = false
      rw [hkeeps.snd.closed, hkeeps.state]
      exact haccept

/-- One step keeps the send side in line with the stream exactly if its `send` fits. -/
theorem StreamInv.follows_step_iff (h : StreamInv iss s)
    (hP : Transfers s.tcb → FollowsStream s) (hstep : s.step tso e = some t) :
    (Transfers t.tcb → FollowsStream t) ↔ SendFits s e := by
  obtain ⟨hinv, hback⟩ := h.step hstep
  have hshort : Transfers s.tcb → s.tcb.snd.unsent.flatten.length < 2 ^ 32 := fun ht =>
    (h.followsStream_iff ht).mp (hP ht)
  by_cases hsend : ∃ p, e = .send p ∧ s.tcb.refusesSend = false
  · obtain ⟨p, rfl, haccept⟩ := hsend
    obtain ⟨-, -, ⟨f, hf, -⟩ | ⟨o, u, hu, rfl⟩⟩ := step_cases hstep
    · cases hf
    · cases hu
      obtain ⟨hlen, hst, hrem, -⟩ := send_accepted p haccept
      have hiff : Transfers (s.tcb.send p) ↔ Transfers s.tcb := by rw [Transfers, Transfers, hst, hrem]
      constructor
      · intro hfollows ht _
        rw [← hlen]
        exact (hinv.followsStream_iff (hiff.mpr ht)).mp (hfollows (hiff.mpr ht))
      · intro hfits ht
        refine (hinv.followsStream_iff ht).mpr ?_
        show (s.tcb.send p).snd.unsent.flatten.length < 2 ^ 32
        rw [hlen]
        exact hfits (hiff.mp ht) haccept
  · -- Nothing is accepted, so no unsent byte is added.
    have hfits : SendFits s e := by
      cases e with
      | send p => exact fun _ haccept => absurd ⟨p, rfl, haccept⟩ hsend
      | _ => exact trivial
    have hnone : (s.accepts e).length = 0 := by
      cases e with
      | send p =>
        have hrefuse : s.tcb.refusesSend = true := by
          by_contra haccept
          exact hsend ⟨p, rfl, by simpa using haccept⟩
        simp [Session.accepts, hrefuse]
      | _ => rfl
    refine ⟨fun _ => hfits, fun _ ht => (hinv.followsStream_iff ht).mpr ?_⟩
    obtain ⟨hts, hle⟩ := hback ht
    have := hshort hts
    omega

/-- In a run from ESTABLISHED, the send side follows the stream of the application in every state
until the transfer ends, if and only if no `send` makes the unsent bytes reach `2^32`. -/
theorem sendSide_follows_iff (h : JustEstablished s) (es : List TcbEvent) :
    Always (Session.step tso) (fun s => Transfers s.tcb → FollowsStream s) s es ↔
      Guarded (Session.step tso) SendFits s es := by
  refine always_iff_guarded (StreamInv s.tcb.snd.initial)
    (fun s e t hinv _ hstep => (hinv.step hstep).1)
    (fun s e t hinv hP hstep => hinv.follows_step_iff hP hstep) h.streamInv ?_ es
  intro ht
  rw [h.streamInv.followsStream_iff ht, h.unsent]
  decide

end

/-- A connection in ESTABLISHED with the initial sequence number `2^32 - 2`. -/
def wrappingSession : Session where
  tcb :=
    { state := .established
      connectDone := 1
      snd :=
        { unacknowledged := ⟨4294967295⟩, next := ⟨4294967295⟩, window := 64000, windowScale := 0
          mss := 1460, wl1 := ⟨0⟩, wl2 := ⟨0⟩, initial := ⟨4294967294⟩, cwnd := 4380
          ssthresh := 64000, recover := ⟨4294967294⟩ }
      rcv := { next := ⟨1⟩, window := 29200, windowScale := 0, mss := 1460, initial := ⟨0⟩ }
      connected := true }

/-- The sample connection is just established. -/
theorem justEstablished_wrappingSession : JustEstablished wrappingSession := by
  constructor <;> decide

/-- The stream is followed past the wrap-around of the sequence numbers. -/
theorem sendSide_follows_wrapping :
    JustEstablished wrappingSession ∧
      Always (Session.step true) (fun s => Transfers s.tcb → FollowsStream s) wrappingSession
        [.send [1, 2, 3], .getPacket, .retransmit, .getPacket] := by
  refine ⟨justEstablished_wrappingSession,
    (sendSide_follows_iff justEstablished_wrappingSession _).mpr ?_⟩
  intro t _
  refine ⟨fun _ _ => by decide, fun u _ => ⟨trivial, fun v _ => ⟨trivial, fun w _ => ?_⟩⟩⟩
  exact ⟨trivial, trivial⟩

/-- A packet that is accepted is put behind the stream. -/
theorem step_send {s : Session} {tso : Bool} {p : Packet} (hfault : s.fault = none)
    (hsized : p.length < 2 ^ 32) (haccept : s.tcb.refusesSend = false) :
    s.step tso (.send p) = some { s with tcb := s.tcb.send p, sent := s.sent ++ p } := by
  have hen : s.tcb.enabled (.send p) = true := by simpa [Tcb.enabled] using hsized
  simp [Session.step, hfault, hen, Tcb.handle, Session.accepts, haccept, Session.returns]

/-- Two packets of `2^31` bytes make `unsent_len` wrap around to zero. -/
theorem not_follows_of_two_sends {s : Session} {tso : Bool} {p : Packet} (h : JustEstablished s)
    (haccept : s.tcb.refusesSend = false) (hp : p.length = 2 ^ 31) :
    ¬Always (Session.step tso) (fun s => Transfers s.tcb → FollowsStream s) s
      [.send p, .send p] := by
  have hsized : p.length < 2 ^ 32 := by omega
  obtain ⟨hlen, hst, hrem, haccept'⟩ := send_accepted p haccept
  obtain ⟨hlen', hst', hrem', -⟩ := send_accepted p haccept'
  intro halways
  have hfirst := halways.2 _ (step_send h.running hsized haccept)
  have hsecond := hfirst.2 _ (step_send h.running hsized haccept')
  have hfollows : FollowsStream _ := hsecond ⟨by rw [hst', hst]; exact h.state, by rw [hrem', hrem]; exact h.live⟩
  have hlt := BitVec.isLt ((s.tcb.send p).send p).snd.unsentLen
  rw [hfollows.unsentLen, hlen', hlen, h.unsent, hp] at hlt
  exact absurd hlt (by decide)

/-- The send side does not follow the stream when the application passes two packets of `2^31` bytes
to `send` and does not wait. -/
theorem sendSide_wraps :
    ¬Always (Session.step false) (fun s => Transfers s.tcb → FollowsStream s) wrappingSession
      [.send (List.replicate (2 ^ 31) 0), .send (List.replicate (2 ^ 31) 0)] :=
  not_follows_of_two_sends justEstablished_wrappingSession (by decide) List.length_replicate

end Netstar.Proofs.Net
