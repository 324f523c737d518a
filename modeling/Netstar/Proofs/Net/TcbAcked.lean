import Netstar.Proofs.Net.TcbAsserts
import Netstar.Proofs.Net.TcbHandshake

/-!
# `Netstar.Proofs.Net.TcbAcked`: bytes leave `_snd.data` when the peer acknowledges them

The stream of the application starts at `ISS + 1`, behind our SYN. `data_segment_acked` counts from
`SND.UNA`, so it removes the bytes that the peer acknowledged only if `SND.UNA` is the number of the
first byte that was not removed.

`do_setup_isn` sets `SND.UNA` to `ISS`, and no function counts the SYN. An acknowledgment of `ISS + 1`
in SYN_RECEIVED moves `SND.UNA` to the right place as a partial acknowledgment of nothing. But the
handler takes `ISS` itself too. Then the connection is in ESTABLISHED one number behind, and every
byte leaves one acknowledgment too early.

`covered` counts the bytes of the stream that the acknowledgments of the peer cover. It is kept beside
the connection and computed from the numbers on the wire only.
-/

set_option autoImplicit false

namespace Netstar.Proofs.Net

open Netstar.Lib
open Netstar.Spec.Net

/-! ### What the acknowledgments of the peer cover -/

/-- A connection that a listener opened, and how many bytes of its stream are acknowledged. -/
structure AckedSession where
  session : Session
  covered : Nat := 0

/-- The number of acknowledged bytes after an event. An acknowledgment number is acceptable when it
lies behind the first byte that is not covered, and not behind `SND.NXT`. -/
def coverAfter (s : Tcb) (covered : Nat) : TcbEvent → Nat
  | .segment th _ =>
    let first := s.snd.initial.add (1 + covered : Nat)
    let ahead := (th.ack.raw - first.raw).toNat
    if s.inState [.established, .closeWait] && th.fAck &&
        ahead ≤ (s.snd.next.raw - first.raw).toNat then covered + ahead
    else covered
  | _ => covered

/-- The application can send as soon as `add_connected_tcb` passed the connection to its listener. -/
def maySend (s : Tcb) : TcbEvent → Bool
  | .send _ => s.connected
  | _ => true

/-- One step of a run. -/
def AckedSession.step (tso : Bool) (s : AckedSession) (e : TcbEvent) : Option AckedSession :=
  if maySend s.session.tcb e then
    (s.session.step tso e).map fun t => ⟨t, coverAfter s.session.tcb s.covered e⟩
  else none

/-- Our SYN was acknowledged, or should have been: ESTABLISHED and the states behind it. -/
def synchronizedStates : List TcpState :=
  [.established, .finWait1, .finWait2, .closeWait, .closing, .lastAck, .timeWait]

/-- A byte of the stream is neither in flight nor unsent only if it is covered. `SND.UNA` lies behind
our SYN, at most one number behind the covered bytes: our FIN has this number. -/
structure AcksOnly (s : AckedSession) : Prop where
  covered : s.covered ≤ s.session.sent.length
  bytes : s.session.tcb.removed = false →
    ∃ k ≤ s.covered, dataBytes s.session.tcb.snd.data ++ s.session.tcb.snd.unsent.flatten
      = s.session.sent.drop k
  una : s.session.tcb.inState synchronizedStates = true →
    ∃ m ≤ s.covered + 1,
      s.session.tcb.snd.unacknowledged = s.session.tcb.snd.initial.add (1 + m : Nat)

/-- The segment that ends the handshake acknowledges our SYN. -/
def AcksSyn (s : AckedSession) : TcbEvent → Prop
  | .segment th p => AcksOurSyn s.session.tcb th p
  | _ => True

/-! ### Steps that remove no byte -/

/-- The connection `t` comes from `s` without an acknowledgment. It has the bytes of `s` followed by
`more`, unless it was removed. -/
structure Settles (more : List UInt8) (s t : Tcb) : Prop where
  initial : t.snd.initial = s.snd.initial
  una : t.snd.unacknowledged = s.snd.unacknowledged
  live : t.removed = false → s.removed = false
  bytes : t.removed = false → Sized s.snd.unsent → Sized t.snd.unsent ∧
    dataBytes t.snd.data ++ t.snd.unsent.flatten
      = dataBytes s.snd.data ++ s.snd.unsent.flatten ++ more

section
variable {s t u : Tcb} {tso : Bool} {more : List UInt8}

/-- After `Settles` with new bytes, steps without new bytes leave it so. -/
theorem Settles.trans (h : Settles more s t) (h' : Settles [] t u) : Settles more s u where
  initial := h'.initial.trans h.initial
  una := h'.una.trans h.una
  live := h.live ∘ h'.live
  bytes := by
    intro hlive hsized
    obtain ⟨hsized', hbytes⟩ := h.bytes (h'.live hlive) hsized
    obtain ⟨hsized'', hbytes'⟩ := h'.bytes hlive hsized'
    rw [List.append_nil] at hbytes'
    exact ⟨hsized'', hbytes'.trans hbytes⟩

/-- `Settles.trans`, with the later step first. -/
theorem Settles.after (h : Settles [] t u) (h' : Settles more s t) : Settles more s u := h'.trans h

/-- A step that leaves the stream alone. -/
theorem SameStream.settles (h : SameStream s.snd t.snd) (hrem : t.removed = s.removed) :
    Settles [] s t where
  initial := h.initial
  una := h.una
  live := fun hlive => hrem ▸ hlive
  bytes := by
    intro _ hsized
    rw [h.bytes, h.unsent, List.append_nil]
    exact ⟨hsized, rfl⟩

/-- Nothing happens to a connection that stays. -/
theorem Settles.refl (s : Tcb) : Settles [] s s := SameStream.settles (.refl _) rfl

/-- A step that changes neither the send side nor whether the connection is in `_tcbs`. -/
theorem settles_of_eq (hsnd : t.snd = s.snd) (hrem : t.removed = s.removed) : Settles [] s t :=
  SameStream.settles (hsnd ▸ .refl _) hrem

/-- A connection that is removed keeps its numbers. -/
theorem settles_of_removed (hinitial : t.snd.initial = s.snd.initial)
    (huna : t.snd.unacknowledged = s.snd.unacknowledged) (hrem : t.removed = true) :
    Settles [] s t where
  initial := hinitial
  una := huna
  live := fun hlive => by
    rw [hrem] at hlive
    cases hlive
  bytes := fun hlive => by
    rw [hrem] at hlive
    cases hlive

/-- Asking for output acknowledges nothing. -/
theorem settles_output (s : Tcb) : Settles [] s s.output :=
  settles_of_eq (snd_output s) (removed_output s)

/-- `can_send` acknowledges nothing. -/
theorem settles_canSend (s : Tcb) : Settles [] s s.canSend.2 := by
  obtain ⟨n, hn⟩ := canSend_eq s.snd
  have hsnd : s.canSend.2.snd = { s.snd with limitedTransfer := n } := hn
  refine SameStream.settles ?_ rfl
  rw [hsnd]
  exact .congr rfl

/-- A first transmission moves bytes from the unsent packets to the end of those in flight. -/
theorem emitSend_bytes {p : Packet} {snd : Send}
    (hcut : s.snd.getTransmitPacket tso = (p, snd)) (hsized : Sized s.snd.unsent) :
    dataBytes (Tcb.emitSend false p snd).data ++ snd.unsent.flatten
      = dataBytes s.snd.data ++ s.snd.unsent.flatten := by
  obtain ⟨hbytes, -, hshort, -, hsame⟩ := getTransmitPacket_spec hcut hsized
  have hdata : snd.data = s.snd.data := by rw [hsame]
  have hlen := toNat_segLen hshort
  by_cases hzero : Tcb.segLen p = 0
  · have hempty : p = [] := by
      apply List.eq_nil_of_length_eq_zero
      rw [← hlen, hzero]
      rfl
    rw [emitSend_of_empty hzero, hdata, ← hbytes, hempty, List.nil_append]
  · rw [emitSend_of_text hzero]
    show dataBytes (snd.data ++ [⟨p, Tcb.segLen p, 0⟩]) ++ snd.unsent.flatten = _
    rw [hdata, dataBytes_append, ← hbytes]
    simp

/-- Sending one segment acknowledges nothing. -/
theorem settles_outputOne {r : Bool} (h : s.outputOne tso r = .ok t) : Settles [] s t := by
  rcases outputOne_ok h with ⟨-, rfl⟩ | ⟨-, p, snd, htake, hemit⟩
  · exact .refl _
  · obtain ⟨delayed, armed, -, rfl⟩ := emit_ok hemit
    rcases takePayload_ok htake with ⟨rfl, rfl, -⟩ | ⟨rfl, hcut⟩
    · exact settles_of_eq rfl rfl
    · obtain ⟨n, hn⟩ := getTransmitPacket_eq tso s.snd
      have hfields : snd.initial = s.snd.initial ∧ snd.unacknowledged = s.snd.unacknowledged := by
        rw [hn] at hcut
        cases hcut
        exact ⟨rfl, rfl⟩
      refine ⟨hfields.1, hfields.2, id, fun _ hsized => ⟨?_, ?_⟩⟩
      · exact (getTransmitPacket_spec hcut hsized).2.1
      · rw [List.append_nil]
        exact emitSend_bytes hcut hsized

/-- A fast retransmission acknowledges nothing. -/
theorem settles_fastRetransmit (h : s.fastRetransmit tso = .ok t) : Settles [] s t := by
  unfold Tcb.fastRetransmit at h
  split at h
  · cases h
    exact .refl _
  · rename_i seg rest hdata
    obtain ⟨v, hv, hret⟩ := bind_eq_ok.mp h
    cases hret
    have hcount : Settles [] s { s with snd := { s.snd with
        data := { seg with nrTransmits := seg.nrTransmits + 1 } :: rest } } :=
      SameStream.settles (sameStream_countTransmit hdata) rfl
    exact (hcount.trans (settles_outputOne hv)).trans (settles_output v)

/-! ### Acknowledgments -/

/-- Setting the retransmission timer acknowledges nothing. -/
theorem settles_setRetransmitTimer (s : Tcb) : Settles [] s s.setRetransmitTimer := by
  unfold Tcb.setRetransmitTimer
  split
  · refine SameStream.settles ?_ rfl
    show SameStream s.snd s.snd.signalAllDataAcked
    unfold Send.signalAllDataAcked
    split
    · exact .congr rfl
    · exact .refl _
  · exact settles_of_eq rfl rfl

/-- Recovering from a loss acknowledges nothing more. -/
theorem settles_recoverFromAck {segAck : TcpSeq} {n : BitVec 32}
    (h : s.recoverFromAck tso segAck n = .ok t) : Settles [] s t := by
  simp only [Tcb.recoverFromAck] at h
  split at h
  · cases h
    exact (settles_setRetransmitTimer _).after (SameStream.settles (.congr rfl) rfl)
  · split at h
    · cases h
      exact (settles_setRetransmitTimer _).after (SameStream.settles (.congr rfl) rfl)
    · obtain ⟨v, hv, hret⟩ := bind_eq_ok.mp h
      cases hret
      exact (settles_fastRetransmit hv).trans (SameStream.settles (.congr rfl) rfl)

/-- A duplicate acknowledgment acknowledges nothing. -/
theorem settles_duplicateAck {segAck : TcpSeq} {d : Bool}
    (h : s.duplicateAck tso segAck = .ok (t, d)) : Settles [] s t := by
  have hcount : Settles [] s { s with snd := { s.snd with dupacks := s.snd.dupacks + 1 } } :=
    SameStream.settles (.congr rfl) rfl
  simp only [Tcb.duplicateAck] at h
  split at h
  · cases h
    exact hcount
  · split at h
    · obtain ⟨v, hv, hret⟩ := bind_eq_ok.mp h
      cases hret
      refine Settles.trans (t := v) ?_ (SameStream.settles (.congr rfl) rfl)
      split at hv
      · exact (settles_fastRetransmit hv).after (SameStream.settles (.congr rfl) rfl)
      · cases hv
        exact hcount
    · split at h
      · cases h
        exact SameStream.settles (.congr rfl) rfl
      · cases h
        exact hcount

/-- The acknowledgment of new data: the number passes the test of the handler, and what follows
`data_segment_acked` removes no byte. -/
def AcksData (th : TcbHdr) (s t : Tcb) : Prop :=
  s.snd.unacknowledged.lt th.ack = true ∧ th.ack.le s.snd.next = true ∧
    ∃ n snd, s.snd.dataSegmentAcked th.ack = .ok (n, snd) ∧ Settles [] { s with snd := snd } t

/-- What an acknowledgment of new data does. -/
theorem ackNewData_acks {th : TcbHdr} {segSeq : TcpSeq}
    (hnew : s.snd.unacknowledged.lt th.ack = true) (hsent : th.ack.le s.snd.next = true)
    (h : s.ackNewData tso th segSeq = .ok t) : AcksData th s t := by
  obtain ⟨⟨n, snd⟩, hacked, hrest⟩ := bind_eq_ok.mp h
  refine ⟨hnew, hsent, n, snd, hacked, (settles_recoverFromAck hrest).after ?_⟩
  split
  · exact SameStream.settles (.congr rfl) rfl
  · exact .refl _

/-- In ESTABLISHED a segment acknowledges new data, or nothing. -/
theorem ackEstablished_settles {th : TcbHdr} {segSeq : TcpSeq} {p : Packet} {flow : Flow}
    (h : s.ackEstablished tso th segSeq p = .ok flow) :
    AcksData th s (Flow.tcb flow) ∨ Settles [] s (Flow.tcb flow) := by
  unfold Tcb.ackEstablished at h
  split at h
  · rename_i hnew
    obtain ⟨hnew, hsent⟩ := Bool.and_eq_true _ _ |>.mp hnew
    obtain ⟨v, hv, hret⟩ := bind_eq_ok.mp h
    cases hret
    exact .inl (ackNewData_acks hnew hsent hv)
  · right
    split at h
    · obtain ⟨⟨v, d⟩, hv, hret⟩ := bind_eq_ok.mp h
      cases hret
      exact settles_duplicateAck hv
    · split at h
      · cases h
        exact settles_output s
      · split at h
        · cases h
          exact SameStream.settles (.congr rfl) rfl
        · cases h
          exact .refl _

/-! ### The text and the FIN -/

/-- Sending the delayed acknowledgment acknowledges nothing of ours. -/
theorem settles_clearDelayedAck_output (s : Tcb) : Settles [] s s.clearDelayedAck.output :=
  (settles_output _).after (settles_of_eq rfl rfl)

/-- The output at the end of the input acknowledges nothing. -/
theorem settles_finishInput (doOutput doOutputData : Bool) (s : Tcb) :
    Settles [] s (s.finishInput doOutput doOutputData) := by
  unfold Tcb.finishInput
  split
  · exact settles_clearDelayedAck_output s
  · split
    · dsimp only
      split
      · exact (settles_canSend s).trans (settles_clearDelayedAck_output _)
      · exact settles_canSend s
    · exact .refl s

/-- Taking a FIN acknowledges nothing of ours. -/
theorem settles_takeFin (finSeq : TcpSeq) (doOutput doOutputData : Bool) (s : Tcb) :
    Settles [] s (s.takeFin finSeq doOutput doOutputData) := by
  have hfin : Settles [] s (finReceived finSeq s) :=
    (settles_output _).after (settles_of_eq rfl rfl)
  have hmove : ∀ st, Settles [] s (Tcb.finishInput false doOutputData
      { finReceived finSeq s with state := st }) := fun st =>
    (settles_finishInput false doOutputData _).after (hfin.trans (settles_of_eq rfl rfl))
  unfold Tcb.takeFin
  split
  · exact .refl s
  · split
    · dsimp only
      split
      · exact hmove .closeWait
      · split
        · exact hmove .closing
        · split
          · exact hfin.trans (settles_of_removed rfl rfl rfl)
          · exact hfin.trans (settles_finishInput false doOutputData _)
    · exact settles_finishInput doOutput doOutputData s

/-- The text and the FIN of a segment acknowledge nothing of ours. -/
theorem settles_textAndFin {th : TcbHdr} {segSeq : TcpSeq} {p : Packet} {d : Bool}
    (h : s.textAndFin th segSeq p d = .ok t) : Settles [] s t := by
  unfold Tcb.textAndFin at h
  split at h
  · cases h
    exact .refl s
  · obtain ⟨⟨doOutput, v⟩, hv, hrest⟩ := bind_eq_ok.mp h
    have htext : Settles [] s v := by
      split at hv
      · exact settles_of_eq (snd_takeText hv).1 (calm_takeText hv).1.removed
      · cases hv
        exact .refl s
    rw [← Except.ok.inj hrest]
    split
    · exact htext.trans (settles_takeFin _ doOutput d v)
    · exact htext.trans (settles_finishInput doOutput d v)

/-! ### Our FIN -/

/-- Behind the handshake, and our FIN is not acknowledged. -/
def finPending (st : TcpState) : Bool :=
  [.established, .finWait1, .closeWait, .closing, .lastAck].contains st

/-- Our FIN is acknowledged. -/
def finAcked (st : TcpState) : Bool := [.finWait2, .timeWait].contains st

/-- The connection goes forward: an acknowledged FIN stays acknowledged. -/
def GoesOn (a b : TcpState) : Prop :=
  (finPending b = true → finPending a = true) ∧
    (finAcked b = true → finPending a = true ∨ finAcked a = true)

/-- Staying in a state goes on. -/
theorem GoesOn.refl (a : TcpState) : GoesOn a a := ⟨id, .inr⟩

/-- An advance goes on. -/
theorem Advance.goesOn {a b : TcpState} (h : Advance a b) : GoesOn a b := by
  cases h with
  | stay => exact .refl a
  | fin | finAfterOurs => exact ⟨fun _ => rfl, (fun h => nomatch h)⟩
  | finAcked => exact ⟨(fun h => nomatch h), fun _ => .inl rfl⟩

/-- `close` goes on. -/
theorem goesOn_closedState (a : TcpState) : GoesOn a (closedState a) := by
  cases a <;> exact ⟨id, .inr⟩

/-- What a segment in sequence does to the bytes behind the handshake: it acknowledges data, it
acknowledges our FIN, or it removes nothing. -/
def Acknowledges (th : TcbHdr) (s t : Tcb) : Prop :=
  (s.inState [.established, .closeWait] = true ∧ AcksData th s t) ∨
    (finPending s.state = true ∧ finPending t.state = false ∧ Settles [] s.doLocalFinAcked t) ∨
    Settles [] s t

/-- The acknowledgment of our FIN, or of something else. -/
theorem ackFin_eq (segAck : TcpSeq) (d : Bool) (s : Tcb) :
    s.ackFin segAck d = .go s d ∨ s.ackFin segAck d = .ret s ∨
      (s.inState [.established, .closeWait] = false ∧ finPending s.state = true ∧
        (s.ackFin segAck d = .go (Tcb.doLocalFinAcked { s with state := .finWait2 }) d ∨
          ∃ v, s.ackFin segAck d = .ret v ∧ finPending v.state = false ∧
            Settles [] s.doLocalFinAcked v)) := by
  unfold Tcb.ackFin
  dsimp only
  split
  · rename_i hfw
    have hst : s.state = .finWait1 := by simpa [Tcb.inState] using hfw
    split
    · exact .inr (.inr ⟨by simp [Tcb.inState, hst], by rw [hst]; rfl, .inl rfl⟩)
    · exact .inl rfl
  · split
    · rename_i hclosing
      have hst : s.state = .closing := by simpa [Tcb.inState] using hclosing
      split
      · refine .inr (.inr ⟨by simp [Tcb.inState, hst], by rw [hst]; rfl, .inr ⟨_, rfl, rfl, ?_⟩⟩)
        exact settles_of_removed rfl rfl rfl
      · exact .inr (.inl rfl)
    · split
      · rename_i hlast
        have hst : s.state = .lastAck := by simpa [Tcb.inState] using hlast
        split
        · refine .inr (.inr ⟨by simp [Tcb.inState, hst], by rw [hst]; rfl, .inr ⟨_, rfl, rfl, ?_⟩⟩)
          exact settles_of_removed rfl rfl rfl
        · exact .inl rfl
      · exact .inl rfl

/-- The text and the FIN in FIN_WAIT_2 leave the connection there, or in TIME_WAIT. -/
theorem textAndFin_finWait2 {th : TcbHdr} {segSeq : TcpSeq} {p : Packet} {d : Bool}
    (hst : s.state = .finWait2) (h : s.textAndFin th segSeq p d = .ok t) :
    finPending t.state = false := by
  rcases textAndFin_cases h (by rw [hst]; simp) with hmoves | ⟨v, -, -, -, -, -, rfl⟩
  · have hadv := hmoves.state
    rw [hst] at hadv
    generalize t.state = b at hadv
    cases hadv
    rfl
  · rfl

/-- Steps that acknowledge nothing may follow the acknowledgment. -/
theorem AcksData.trans {th : TcbHdr} (h : AcksData th s t) (h' : Settles [] t u) :
    AcksData th s u := by
  obtain ⟨hnew, hsent, n, snd, hacked, hsettles⟩ := h
  exact ⟨hnew, hsent, n, snd, hacked, hsettles.trans h'⟩

/-- What a segment in sequence acknowledges. -/
theorem handleSynchronized_acknowledges {th : TcbHdr} {segSeq : TcpSeq} {p : Packet}
    (h : s.handleSynchronized tso th segSeq p = .ok t) : Acknowledges th s t := by
  obtain ⟨flow, hflow, hrest⟩ := bind_eq_ok.mp h
  -- Our FIN is sent behind ESTABLISHED and CLOSE_WAIT only.
  have hfirst : (s.inState [.established, .closeWait] = true ∧ AcksData th s (Flow.tcb flow)) ∨
      (Settles [] s (Flow.tcb flow) ∧
        (s.inState [.established, .closeWait] = false → flow = .go s false)) := by
    split at hflow
    · rename_i hin
      refine (ackEstablished_settles hflow).imp (fun hacks => ⟨hin, hacks⟩) fun hsettles => ?_
      exact ⟨hsettles, fun hnot => by rw [hin] at hnot; cases hnot⟩
    · cases hflow
      exact .inr ⟨.refl s, fun _ => rfl⟩
  have hstate : (Flow.tcb flow).inState [.established, .closeWait]
      = s.inState [.established, .closeWait] := by
    have hsame : (Flow.tcb flow).state = s.state := by
      split at hflow
      · exact (keeps_ackEstablished hflow).state
      · cases hflow
        rfl
    rw [Tcb.inState, Tcb.inState, hsame]
  -- What follows the acknowledgment of data.
  have hnext : Settles [] (Flow.tcb flow) t ∨
      ((Flow.tcb flow).inState [.established, .closeWait] = false ∧
        finPending (Flow.tcb flow).state = true ∧ finPending t.state = false ∧
        Settles [] (Flow.tcb flow).doLocalFinAcked t) := by
    cases flow with
    | ret v =>
      cases hrest
      exact .inl (.refl _)
    | go v d =>
      rcases ackFin_eq th.ack d v with hgo | hret | ⟨hin, hpending, hgo | ⟨w, hret, hdone, hw⟩⟩
      · simp only [hgo] at hrest
        exact .inl (settles_textAndFin hrest)
      · simp only [hret] at hrest
        cases hrest
        exact .inl (.refl _)
      · simp only [hgo] at hrest
        refine .inr ⟨hin, hpending, textAndFin_finWait2 rfl hrest, ?_⟩
        exact (settles_textAndFin hrest).after (settles_of_eq rfl rfl)
      · simp only [hret] at hrest
        cases hrest
        exact .inr ⟨hin, hpending, hdone, hw⟩
  rcases hnext with hlast | ⟨hin, hpending, hdone, hlast⟩
  · rcases hfirst with ⟨hin, hacks⟩ | ⟨hsettles, -⟩
    · exact .inl ⟨hin, hacks.trans hlast⟩
    · exact .inr (.inr (hsettles.trans hlast))
  · rw [hstate] at hin
    rcases hfirst with ⟨hin', -⟩ | ⟨-, hgo⟩
    · rw [hin'] at hin
      cases hin
    · rw [hgo hin] at hpending hlast
      exact .inr (.inl ⟨hpending, hdone, hlast⟩)

/-- What a segment does to the bytes behind the handshake. -/
theorem inputHandleOtherState_acknowledges {th : TcbHdr} {p : Packet}
    (hst : s.synNeedsOn = false) (h : s.inputHandleOtherState tso th p = .ok t) :
    (th.fAck = true ∧ Acknowledges th s t ∨ Settles [] s t) ∧ GoesOn s.state t.state := by
  have hclosed : t.state = .closed → GoesOn s.state t.state := fun heq => by
    rw [heq]
    exact ⟨(fun h => by cases h), (fun h => by cases h)⟩
  have hsame : t.state = s.state → GoesOn s.state t.state := fun heq => by
    rw [heq]
    exact .refl _
  obtain ⟨q, -, ⟨-, rfl⟩ | ⟨-, segSeq, r, -, ⟨-, hin⟩ | ⟨-, rcv, -, rfl⟩⟩⟩ :=
    inputHandleOtherState_ok h
  · exact ⟨.inr (settles_output s), hsame (state_output s)⟩
  · rcases handleInOrder_cases hin with
      ⟨-, -, rfl⟩ | ⟨-, -, rfl⟩ | ⟨-, -, rfl⟩ | ⟨-, rfl⟩ | rfl | ⟨hflag, hack⟩
    · exact ⟨.inr (settles_of_removed rfl rfl rfl), hclosed rfl⟩
    · exact ⟨.inr (settles_of_removed rfl rfl rfl), hclosed rfl⟩
    · exact ⟨.inr (settles_of_removed rfl rfl rfl), hclosed rfl⟩
    · exact ⟨.inr (settles_of_removed rfl rfl rfl), hclosed rfl⟩
    · exact ⟨.inr (.refl _), hsame rfl⟩
    · have hnot := (synNeedsOn_eq_false.mp hst).2
      rcases ackSynReceived_cases th.ack s with ⟨-, hgo⟩ | ⟨hsyn, -⟩ | ⟨hsyn, -⟩
      · simp only [Tcb.ackAndText, hgo] at hack
        refine ⟨.inl ⟨hflag, handleSynchronized_acknowledges hack⟩, ?_⟩
        rcases handleSynchronized_cases hack hnot with
          hmoves | ⟨v, -, ⟨hwait, -, -, -, rfl⟩ | ⟨hclosing, -, rfl⟩ | ⟨-, -, rfl⟩⟩
        · exact hmoves.state.goesOn
        · have hfin : s.state = .finWait1 ∨ s.state = .finWait2 := by simpa [Tcb.inState] using hwait
          rcases hfin with hfin | hfin
          · exact ⟨(fun h => by cases h), fun _ => .inl (by rw [hfin]; rfl)⟩
          · exact ⟨(fun h => by cases h), fun _ => .inr (by rw [hfin]; rfl)⟩
        · exact ⟨(fun h => by cases h), fun _ => .inl (by rw [hclosing]; rfl)⟩
        · exact hclosed rfl
      · exact absurd hsyn hnot
      · exact absurd hsyn hnot
  · refine ⟨.inr ((settles_output _).after (settles_of_eq rfl rfl)), hsame ?_⟩
    exact state_output _

/-! ### The other events -/

/-- `close` acknowledges nothing. -/
theorem settles_close (s : Tcb) : Settles [] s s.close := by
  unfold Tcb.close
  split
  · exact .refl s
  · refine SameStream.settles ?_ rfl
    show SameStream s.snd s.snd.waitForAllDataAcked
    unfold Send.waitForAllDataAcked
    split
    · exact .congr rfl
    · exact .congr rfl

/-- Polling again acknowledges nothing. -/
theorem settles_pollAgain (s : Tcb) : Settles [] s s.pollAgain := by
  unfold Tcb.pollAgain
  split
  · exact settles_output s
  · split
    · dsimp only
      split
      · exact (settles_canSend s).trans (settles_output _)
      · exact settles_canSend s
    · exact .refl s

/-- Handing a packet to the device acknowledges nothing. -/
theorem settles_getPacket {o : Option OutSegment} (h : s.getPacket tso = .ok (o, t)) :
    Settles [] s t := by
  obtain ⟨v, hv, hrest⟩ := getPacket_ok h
  have hbase : Settles [] s { s with pollActive := false, pollRequested := false } :=
    settles_of_eq rfl rfl
  have hfirst : Settles [] s v := by
    rcases hv with ⟨-, hv⟩ | ⟨-, rfl⟩
    · exact hbase.trans (settles_outputOne hv)
    · exact hbase
  rcases hrest with ⟨-, -, rfl⟩ | ⟨seg, rest, -, -, rfl⟩
  · exact hfirst
  · exact (settles_pollAgain _).after (hfirst.trans (settles_of_eq rfl rfl))

/-- A window probe acknowledges nothing. -/
theorem settles_persist (h : s.persist tso = .ok t) : Settles [] s t := by
  obtain ⟨v, hv, hret⟩ := bind_eq_ok.mp h
  cases hret
  have hprobe : Settles [] s v :=
    (settles_outputOne hv).after (SameStream.settles (.congr rfl) rfl)
  have hdone : Settles [] s { v with snd := { v.snd with windowProbe := false } } :=
    hprobe.trans (SameStream.settles (.congr rfl) rfl)
  exact (hdone.trans (settles_output _)).trans (settles_of_eq rfl rfl)

/-- Arming the retransmission timer again acknowledges nothing. -/
theorem settles_outputUpdateRto (s : Tcb) : Settles [] s s.outputUpdateRto :=
  (settles_output s).trans (settles_of_eq rfl rfl)

/-- Retransmitting data acknowledges nothing. -/
theorem settles_retransmitData (h : s.retransmitData tso = .ok t) : Settles [] s t := by
  unfold Tcb.retransmitData at h
  split at h
  · cases h
    exact .refl _
  · rename_i seg rest hdata
    dsimp only at h
    split at h
    · obtain ⟨v, hv, hret⟩ := bind_eq_ok.mp h
      cases hret
      have hcount := sameStream_countTransmit hdata
      have hslow : SameStream s.snd { Tcb.slowStart seg s.snd with
          data := { seg with nrTransmits := seg.nrTransmits + 1 } :: rest } :=
        ⟨rfl, rfl, rfl, hcount.bytes, hcount.lens, hcount.fits, rfl, rfl, rfl⟩
      have hout := (settles_outputOne hv).after (SameStream.settles hslow rfl)
      exact hout.trans (settles_outputUpdateRto v)
    · cases h
      exact settles_of_removed rfl rfl rfl

/-- Retransmitting our FIN acknowledges nothing. -/
theorem settles_retransmitFinData (h : s.retransmitFinData tso = .ok t) : Settles [] s t := by
  simp only [Tcb.retransmitFinData] at h
  split at h
  · split at h
    · have hcount := (settles_retransmitData h).after (settles_outputUpdateRto _)
      exact hcount.after (SameStream.settles (.congr rfl) rfl)
    · cases h
      exact settles_of_removed rfl rfl rfl
  · exact settles_retransmitData h

/-- The retransmission timer acknowledges nothing. -/
theorem settles_retransmit (h : s.retransmit tso = .ok t) : Settles [] s t := by
  simp only [Tcb.retransmit] at h
  split at h
  · split at h
    · have hcount := (settles_retransmitFinData h).after (settles_outputUpdateRto _)
      exact hcount.after (SameStream.settles (.congr rfl) rfl)
    · cases h
      exact settles_of_removed rfl rfl rfl
  · exact settles_retransmitFinData h

/-- The packet joins the bytes at their end. -/
theorem settles_enqueue {p : Packet} (hp : p.length < 2 ^ 32) : Settles p s (s.enqueue p) where
  initial := rfl
  una := rfl
  live := id
  bytes := by
    intro _ hsized
    refine ⟨fun q hq => ?_, ?_⟩
    · rcases List.mem_append.mp hq with hq | hq
      · exact hsized q hq
      · rw [List.mem_singleton.mp hq]
        exact hp
    · show dataBytes s.snd.data ++ (s.snd.unsent ++ [p]).flatten = _
      simp

/-- `send` puts the packet behind the bytes there, unless it is refused. -/
theorem settles_send {p : Packet} (hp : p.length < 2 ^ 32) :
    Settles (if s.refusesSend then [] else p) s (s.send p) := by
  rcases send_cases s p with ⟨hrefuse, heq⟩ | ⟨haccept, v, -, hv, heq⟩
  · rw [heq, if_pos hrefuse]
    exact .refl s
  · rw [heq, if_neg (by simp [haccept])]
    have hsent : Settles p s v := by
      rcases hv with rfl | rfl
      · exact (settles_enqueue hp).trans (settles_canSend _)
      · exact ((settles_enqueue hp).trans (settles_canSend _)).trans (settles_output _)
    refine hsent.trans (SameStream.settles ?_ rfl)
    show SameStream v.snd v.snd.waitSendAvailable
    unfold Send.waitSendAvailable
    split
    · exact .refl _
    · exact .congr rfl

/-- The retransmission timer leaves the state alone. -/
theorem state_retransmit (h : s.retransmit tso = .ok t) : t.state = s.state := by
  rcases retransmit_cases h with hkeeps | ⟨-, v, hkeeps, rfl⟩ | ⟨-, v, hkeeps, rfl⟩
  · exact hkeeps.state
  · exact hkeeps.state
  · exact hkeeps.state

end

/-- An event other than a segment removes no byte, and it changes the state only as `close` does. -/
theorem handle_settles {s : Session} {t : Tcb} {tso : Bool} {e : TcbEvent} {o : Option OutSegment}
    (hne : ∀ th p, e ≠ .segment th p) (hen : s.tcb.enabled e = true)
    (h : s.tcb.handle tso e = .ok (o, t)) :
    Settles (s.accepts e) s.tcb t ∧ (t.state = s.tcb.state ∨ t.state = closedState s.tcb.state) := by
  cases e with
  | segment th p => exact absurd rfl (hne th p)
  | send p =>
    cases h
    refine ⟨settles_send (by simpa [Tcb.enabled] using hen), .inl ?_⟩
    rcases send_cases s.tcb p with ⟨-, heq⟩ | ⟨-, v, hkeeps, -, heq⟩
    · rw [heq]
    · rw [heq]
      exact hkeeps.state
  | read | closeRead | arpQueueFull =>
    cases h
    exact ⟨settles_of_eq rfl rfl, .inl rfl⟩
  | waitForData =>
    cases h
    unfold Tcb.waitForData
    split
    · exact ⟨.refl _, .inl rfl⟩
    · exact ⟨settles_of_eq rfl rfl, .inl rfl⟩
  | close =>
    cases h
    exact ⟨settles_close _, .inl (close_state _).1⟩
  | shutdownConnect =>
    cases h
    unfold Tcb.shutdownConnect
    split
    · exact ⟨settles_of_removed rfl rfl rfl, .inl rfl⟩
    · exact ⟨(settles_close _).after (settles_of_eq rfl rfl), .inl (close_state _).1⟩
  | closeContinuation =>
    obtain ⟨u, hu, heq⟩ := map_eq_ok.mp h
    cases heq
    refine ⟨?_, .inr (closeContinuation_cases hu).state⟩
    obtain ⟨v, hv, hret⟩ := bind_eq_ok.mp hu
    cases hret
    -- The FIN goes out behind the data, and it is not a byte of the stream.
    rw [closedState_eq] at hv
    refine ((settles_outputOne hv).after ?_).trans (settles_output v)
    exact SameStream.settles (.congr rfl) rfl
  | getPacket => exact ⟨settles_getPacket h, .inl (keeps_getPacket h).state⟩
  | arpTimeout =>
    cases h
    unfold Tcb.arpTimeout
    dsimp only
    split
    · exact ⟨settles_of_removed rfl rfl rfl, .inl rfl⟩
    · exact ⟨settles_of_eq rfl rfl, .inl rfl⟩
  | retransmit =>
    obtain ⟨u, hu, heq⟩ := map_eq_ok.mp h
    cases heq
    have hst := state_retransmit hu
    exact ⟨(settles_retransmit hu).after (settles_of_eq rfl rfl), .inl hst⟩
  | persist =>
    obtain ⟨u, hu, heq⟩ := map_eq_ok.mp h
    cases heq
    exact ⟨(settles_persist hu).after (settles_of_eq rfl rfl), .inl (keeps_persist hu).state⟩
  | delayedAck =>
    cases h
    exact ⟨(settles_output _).after (settles_of_eq rfl rfl), .inl (keeps_delayedAck _).state⟩

/-! ### What is covered -/

/-- The distance between the numbers of two bytes of the stream. -/
theorem distance_eq (iss : TcpSeq) (m n : Nat) :
    ((iss.add (m + n : Nat)).raw - (iss.add (m : Nat)).raw).toNat = n % 2 ^ 32 := by
  show ((iss.raw + BitVec.ofInt 32 ((m + n : Nat) : Int))
    - (iss.raw + BitVec.ofInt 32 (m : Int))).toNat = _
  rw [BitVec.ofInt_natCast, BitVec.ofInt_natCast]
  have hdiff : iss.raw + BitVec.ofNat 32 (m + n) - (iss.raw + BitVec.ofNat 32 m)
      = BitVec.ofNat 32 n := by
    rw [BitVec.ofNat_add]
    bv_omega
  rw [hdiff, BitVec.toNat_ofNat]

/-- The number of `a` acknowledged bytes is not behind `SND.NXT`. -/
theorem distance_of_le {una : TcpSeq} {a flight : Nat} (ha : a ≤ flight)
    (hle : (una.add a).le (una.add flight) = true) : (flight - a) % 2 ^ 32 < 2 ^ 31 := by
  obtain ⟨b, rfl⟩ := Nat.exists_eq_add_of_le ha
  have hdist := distance_eq una a b
  have hsigned : 0 ≤ ((una.add (a + b : Nat)).raw - (una.add a).raw).toInt := by
    simpa [TcpSeq.le, TcpSeq.lt, TcpSeq.sub] using hle
  rw [BitVec.toInt_eq_toNat_cond, hdist] at hsigned
  rw [Nat.add_sub_cancel_left]
  split at hsigned
  · omega
  · omega

/-- The invariant behind the handshake. `SND.UNA` and the bytes that the send side still has agree with
what is covered. -/
structure AckInv (s : AckedSession) : Prop where
  stream : StreamInv s.session.tcb.snd.initial s.session
  covered : s.covered ≤ s.session.sent.length
  room : Transfers s.session.tcb →
    s.covered + s.session.tcb.snd.unsent.flatten.length ≤ s.session.sent.length
  pending : finPending s.session.tcb.state = true → ∃ m ≤ s.covered,
    s.session.tcb.snd.unacknowledged = s.session.tcb.snd.initial.add (1 + m : Nat)
  done : finAcked s.session.tcb.state = true → ∃ m ≤ s.covered + 1,
    s.session.tcb.snd.unacknowledged = s.session.tcb.snd.initial.add (1 + m : Nat)
  bytes : s.session.tcb.removed = false → Sized s.session.tcb.snd.unsent ∧ ∃ k ≤ s.covered,
    dataBytes s.session.tcb.snd.data ++ s.session.tcb.snd.unsent.flatten = s.session.sent.drop k

section
variable {s t : AckedSession} {tso : Bool} {e : TcbEvent}

/-- The invariant says that only sent bytes are acknowledged. -/
theorem AckInv.acksOnly (h : AckInv s) : AcksOnly s where
  covered := h.covered
  bytes := fun hlive => (h.bytes hlive).2
  una := by
    intro hin
    have hphase : finPending s.session.tcb.state = true ∨ finAcked s.session.tcb.state = true := by
      simp only [Tcb.inState, synchronizedStates] at hin
      revert hin
      cases s.session.tcb.state <;> decide
    rcases hphase with hpending | hdone
    · obtain ⟨m, hm, huna⟩ := h.pending hpending
      exact ⟨m, by omega, huna⟩
    · exact h.done hdone

/-- While data is transferred, the bytes that left are the first of the stream, and what is covered
lies in flight. -/
theorem AckInv.sendInv (h : AckInv s) (ht : Transfers s.session.tcb) :
    ∃ k ≤ s.covered, SendInv s.session.sent k s.session.tcb.snd ∧
      s.covered ≤ k + (dataBytes s.session.tcb.snd.data).length := by
  obtain ⟨-, ⟨k, hk⟩, -, -⟩ := h.stream.tcb ht
  obtain ⟨-, k', hle, hbytes⟩ := h.bytes ht.2
  have hlen := congrArg List.length hk.bytes
  have hlen' := congrArg List.length hbytes
  have hroom := h.room ht
  have hcovered := h.covered
  have hstream := hk.le
  simp only [List.length_append, List.length_drop] at hlen hlen'
  exact ⟨k, by omega, hk, by omega⟩

/-- What is covered never passes what was sent. -/
theorem AckInv.cover (h : AckInv s) (hen : s.session.tcb.enabled e = true) :
    s.covered ≤ coverAfter s.session.tcb s.covered e ∧
      coverAfter s.session.tcb s.covered e ≤ s.session.sent.length ∧
      (Transfers s.session.tcb → coverAfter s.session.tcb s.covered e
        + s.session.tcb.snd.unsent.flatten.length ≤ s.session.sent.length) := by
  have hsame : s.covered ≤ s.covered ∧ s.covered ≤ s.session.sent.length ∧ _ :=
    ⟨Nat.le_refl _, h.covered, h.room⟩
  cases e with
  | segment th p =>
    dsimp only [coverAfter]
    split
    · rename_i hcond
      simp only [Bool.and_eq_true, decide_eq_true_eq] at hcond
      obtain ⟨⟨hin, -⟩, hahead⟩ := hcond
      have ht : Transfers s.session.tcb :=
        ⟨by simpa [Tcb.inState] using hin, by simpa [Tcb.enabled] using hen⟩
      obtain ⟨k, hk, hinv, hflight⟩ := h.sendInv ht
      obtain ⟨n, hn⟩ := Nat.exists_eq_add_of_le hflight
      have hnext : s.session.tcb.snd.next
          = s.session.tcb.snd.initial.add (1 + s.covered + n : Nat) := by
        rw [hinv.next_eq, hn, Nat.add_assoc]
      rw [hnext, distance_eq] at hahead
      have hlen := congrArg List.length hinv.bytes
      have hstream := hinv.le
      simp only [List.length_append, List.length_drop] at hlen
      have hmod := Nat.mod_le n (2 ^ 32)
      omega
    · exact hsame
  | _ => exact hsame

/-- What `data_segment_acked` removes is covered. -/
theorem le_coverAfter (ht : Transfers s.session.tcb) {th : TcbHdr} {p : Packet} {k a : Nat}
    (hflag : th.fAck = true) (hinv : SendInv s.session.sent k s.session.tcb.snd)
    (hk : k ≤ s.covered) (ha : a ≤ 2 ^ 31) (hflight : a ≤ (dataBytes s.session.tcb.snd.data).length)
    (hcovered : s.covered ≤ k + (dataBytes s.session.tcb.snd.data).length)
    (hack : th.ack = s.session.tcb.snd.unacknowledged.add a)
    (hsent : th.ack.le s.session.tcb.snd.next = true) :
    k + a ≤ coverAfter s.session.tcb s.covered (.segment th p) := by
  dsimp only [coverAfter]
  by_cases hold : k + a ≤ s.covered
  · split
    · omega
    · exact hold
  · obtain ⟨c, hc⟩ := Nat.exists_eq_add_of_le hk
    obtain ⟨n, hn⟩ := Nat.exists_eq_add_of_le hcovered
    obtain ⟨d, hd⟩ := Nat.exists_eq_add_of_le (Nat.le_of_not_le hold)
    have hnext : s.session.tcb.snd.next
        = s.session.tcb.snd.initial.add (1 + s.covered + n : Nat) := by
      rw [hinv.next_eq, hn, Nat.add_assoc]
    have hnumber : th.ack = s.session.tcb.snd.initial.add (1 + s.covered + d : Nat) := by
      rw [hack, hinv.una, add_add, ← Int.natCast_add]
      congr 2
      omega
    -- The number is ahead of the first byte that is not covered, by no more than `SND.NXT` is.
    rw [hack, hinv.next] at hsent
    have hbehind := distance_of_le hflight hsent
    have hin : s.session.tcb.inState [.established, .closeWait] = true := by
      rcases ht.1 with hst | hst
      · simp [Tcb.inState, hst]
      · simp [Tcb.inState, hst]
    rw [hnext, hnumber, distance_eq, distance_eq, hin, hflag, if_pos]
    · omega
    · simp only [Bool.and_eq_true, decide_eq_true_eq, true_and]
      omega

/-! ### Runs -/

/-- A step of the run is a step of the session. -/
theorem acked_step (h : s.step tso e = some t) :
    maySend s.session.tcb e = true ∧ ∃ v, s.session.step tso e = some v ∧
      t = ⟨v, coverAfter s.session.tcb s.covered e⟩ := by
  unfold AckedSession.step at h
  split at h
  · rename_i hmay
    obtain ⟨v, hv, heq⟩ := Option.map_eq_some_iff.mp h
    exact ⟨hmay, v, hv, heq.symm⟩
  · cases h

/-- A step that removes no byte keeps the invariant. -/
theorem AckInv.settles {v : Tcb} {received : List UInt8} {emitted : List OutSegment}
    (h : AckInv s) (hen : s.session.tcb.enabled e = true)
    (hstream : StreamInv s.session.tcb.snd.initial
      { s.session with
        tcb := v, sent := s.session.sent ++ s.session.accepts e, received := received,
        emitted := emitted })
    (hback : Transfers v → Transfers s.session.tcb ∧ v.snd.unsent.flatten.length
      ≤ s.session.tcb.snd.unsent.flatten.length + (s.session.accepts e).length)
    (hsettles : Settles (s.session.accepts e) s.session.tcb v)
    (hgoes : GoesOn s.session.tcb.state v.state) :
    AckInv ⟨{ s.session with
        tcb := v, sent := s.session.sent ++ s.session.accepts e, received := received,
        emitted := emitted }, coverAfter s.session.tcb s.covered e⟩ := by
  obtain ⟨hmore, hsent, hroom⟩ := h.cover hen
  refine ⟨by rw [hsettles.initial]; exact hstream, ?_, fun ht => ?_, fun hpending => ?_,
    fun hdone => ?_, fun hlive => ?_⟩
  · show coverAfter s.session.tcb s.covered e ≤ (s.session.sent ++ s.session.accepts e).length
    rw [List.length_append]
    omega
  · obtain ⟨ht', hle⟩ := hback ht
    have hroom' := hroom ht'
    show coverAfter s.session.tcb s.covered e + v.snd.unsent.flatten.length ≤ (s.session.sent ++ s.session.accepts e).length
    rw [List.length_append]
    omega
  · obtain ⟨m, hm, huna⟩ := h.pending (hgoes.1 hpending)
    exact ⟨m, Nat.le_trans hm hmore, by rw [hsettles.una, hsettles.initial, huna]⟩
  · rcases hgoes.2 hdone with hphase | hphase
    · obtain ⟨m, hm, huna⟩ := h.pending hphase
      exact ⟨m, Nat.le_succ_of_le (Nat.le_trans hm hmore), by rw [hsettles.una, hsettles.initial, huna]⟩
    · obtain ⟨m, hm, huna⟩ := h.done hphase
      exact ⟨m, Nat.le_trans hm (Nat.succ_le_succ hmore), by rw [hsettles.una, hsettles.initial, huna]⟩
  · obtain ⟨hsized, k, hk, hbytes⟩ := h.bytes (hsettles.live hlive)
    obtain ⟨hsized', hbytes'⟩ := hsettles.bytes hlive hsized
    have hcovered := h.covered
    refine ⟨hsized', k, Nat.le_trans hk hmore, ?_⟩
    rw [hbytes', hbytes, List.drop_append_of_le_length (by omega)]

/-- A segment behind the handshake keeps the invariant. -/
theorem AckInv.segment {th : TcbHdr} {p : Packet} {v : Tcb} (h : AckInv s)
    (hen : s.session.tcb.enabled (.segment th p) = true)
    (hstream : StreamInv s.session.tcb.snd.initial { s.session with tcb := v })
    (hback : Transfers v → Transfers s.session.tcb ∧ v.snd.unsent.flatten.length
      ≤ s.session.tcb.snd.unsent.flatten.length)
    (hseg : s.session.tcb.inputHandle tso th p = .ok v) :
    AckInv ⟨{ s.session with tcb := v },
      coverAfter s.session.tcb s.covered (.segment th p)⟩ := by
  have hsyn := h.stream.synchronized
  rw [Tcb.inputHandle, if_neg (synNeedsOn_eq_false.mp hsyn).1] at hseg
  have hlive : s.session.tcb.removed = false := by simpa [Tcb.enabled] using hen
  obtain ⟨hmore, hsent, hroom⟩ := h.cover hen
  obtain ⟨hacks, hgoes⟩ := inputHandleOtherState_acknowledges hsyn hseg
  rcases hacks with ⟨hflag, ⟨hin, hnew, hle, n, snd, hacked, hsettles⟩ |
    ⟨hpending, hover, hsettles⟩ | hsettles⟩ | hsettles
  · -- Data is acknowledged.
    have ht : Transfers s.session.tcb := ⟨by simpa [Tcb.inState] using hin, hlive⟩
    obtain ⟨k, hk, hinv, hflight⟩ := h.sendInv ht
    -- `a` is how many bytes the segment acknowledges, and `k` of them were acknowledged before.
    obtain ⟨a, hpos, ha, hack, hinv', hinitial, -⟩ := hinv.acked hnew hle hacked
    have hacked_le : a ≤ (dataBytes s.session.tcb.snd.data).length := by
      rw [hack, hinv.next] at hle
      exact le_flight hpos ha hle
    have hcover := le_coverAfter (p := p) ht hflag hinv hk ha hacked_le hflight hack hle
    have huna : v.snd.unacknowledged = v.snd.initial.add (1 + (k + a) : Nat) := by
      rw [hsettles.una, hsettles.initial]
      exact hinv'.una
    refine ⟨?_, hsent, fun ht' => ?_, fun _ => ⟨k + a, hcover, huna⟩,
      fun _ => ⟨k + a, Nat.le_succ_of_le hcover, huna⟩, fun hlive' => ?_⟩
    · rw [hsettles.initial]
      show StreamInv snd.initial _
      rw [hinitial]
      exact hstream
    · have hle' := (hback ht').2
      have hroom' := hroom ht
      show coverAfter s.session.tcb s.covered (.segment th p) + v.snd.unsent.flatten.length ≤ s.session.sent.length
      omega
    · obtain ⟨hsized, hbytes⟩ := hsettles.bytes hlive' hinv'.sized
      refine ⟨hsized, k + a, hcover, ?_⟩
      rw [hbytes, List.append_nil]
      exact hinv'.bytes
  · -- Our FIN is acknowledged.
    obtain ⟨m, hm, huna⟩ := h.pending hpending
    refine ⟨by rw [hsettles.initial]; exact hstream, hsent, fun ht' => ?_, fun hpending' => ?_,
      fun _ => ⟨m + 1, Nat.succ_le_succ (Nat.le_trans hm hmore), ?_⟩, fun hlive' => ?_⟩
    · have hroom' := hroom (hback ht').1
      have hle' := (hback ht').2
      show coverAfter s.session.tcb s.covered (.segment th p) + v.snd.unsent.flatten.length ≤ s.session.sent.length
      omega
    · rw [hover] at hpending'
      cases hpending'
    · rw [hsettles.una, hsettles.initial]
      show s.session.tcb.snd.unacknowledged.add 1 = s.session.tcb.snd.initial.add _
      rw [huna, add_add]
      congr 1
    · obtain ⟨hsized, k, hk, hbytes⟩ := h.bytes hlive
      obtain ⟨hsized', hbytes'⟩ := hsettles.bytes hlive' hsized
      rw [List.append_nil] at hbytes'
      exact ⟨hsized', k, Nat.le_trans hk hmore, hbytes'.trans hbytes⟩
  -- Otherwise nothing is acknowledged, and the segment is like any other event.
  all_goals
    have hkeep := @AckInv.settles s (.segment th p) v s.session.received s.session.emitted h hen
      (by simpa [Session.accepts] using hstream)
      (by simpa [Session.accepts] using hback) hsettles hgoes
    simpa [Session.accepts] using hkeep

/-- No acknowledgment follows: the program stopped, or the handshake failed. -/
def Ended (s : AckedSession) : Prop :=
  (s.session.fault ≠ none ∨ GivenUp s.session.tcb) ∧ AcksOnly s

/-- Where a run that a listener opened can be. -/
def AckPhase (s : AckedSession) : Prop :=
  (Opening s.session ∧ s.covered = 0) ∨ AckInv s ∨ Ended s

/-- A connection given up is in no synchronized state. -/
theorem not_synchronized_of_givenUp {u : Tcb} (h : GivenUp u) :
    u.inState synchronizedStates = false := by
  have hin := h.2
  simp only [Tcb.inState, synchronizedStates] at hin ⊢
  revert hin
  cases u.state <;> decide

/-- In the handshake nothing is covered. -/
theorem coverAfter_of_syn {u : Tcb} (hsyn : u.synNeedsOn = true) (n : Nat) (e : TcbEvent) :
    coverAfter u n e = n := by
  have hnot : u.inState [.established, .closeWait] = false := by
    have hst : u.state = .synSent ∨ u.state = .synReceived := by
      simpa [Tcb.synNeedsOn, Tcb.inState] using hsyn
    rcases hst with hst | hst
    · simp [Tcb.inState, hst]
    · simp [Tcb.inState, hst]
  cases e with
  | segment th p => simp [coverAfter, hnot]
  | _ => rfl

/-- A connection without a stream. -/
theorem acksOnly_of_givenUp (h : GivenUp s.session.tcb) (hcovered : s.covered ≤ s.session.sent.length) :
    AcksOnly s where
  covered := hcovered
  bytes := fun hlive => by
    rw [h.1] at hlive
    cases hlive
  una := fun hin => by
    rw [not_synchronized_of_givenUp h] at hin
    cases hin

/-- Wherever a run is, only sent bytes are acknowledged. -/
theorem AckPhase.acksOnly (h : AckPhase s) : AcksOnly s := by
  rcases h with ⟨hopen, hzero⟩ | hinv | hended
  · refine ⟨by omega, fun _ => ⟨0, Nat.zero_le _, ?_⟩, fun hin => ?_⟩
    · rw [hopen.tcb.data, hopen.tcb.unsent, hopen.sent]
      rfl
    · have hsyn : s.session.tcb.state = .synSent ∨ s.session.tcb.state = .synReceived := by
        simpa [Tcb.synNeedsOn, Tcb.inState] using hopen.tcb.syn
      simp only [Tcb.inState, synchronizedStates] at hin
      rcases hsyn with hsyn | hsyn
      · rw [hsyn] at hin
        exact absurd hin (by decide)
      · rw [hsyn] at hin
        exact absurd hin (by decide)
  · exact hinv.acksOnly
  · exact hended.2

/-- The transfer starts with `SND.UNA` behind our SYN. -/
theorem JustEstablished.ackInv (h : JustEstablished s.session) (hzero : s.covered = 0) : AckInv s where
  stream := h.streamInv
  covered := by omega
  room := by
    intro _
    rw [h.unsent, hzero]
    exact Nat.zero_le _
  pending := fun _ => ⟨0, Nat.zero_le _, h.una⟩
  done := fun _ => ⟨0, Nat.zero_le _, h.una⟩
  bytes := by
    intro _
    refine ⟨fun q hq => ?_, 0, Nat.zero_le _, ?_⟩
    · rw [List.flatten_eq_nil_iff.mp h.unsent q hq]
      decide
    · rw [h.data, h.unsent, h.sent]
      rfl

/-- A step whose segment acknowledges our SYN keeps the phases in order. -/
theorem AckPhase.step (h : AckPhase s) (hok : AcksSyn s e) (hstep : s.step tso e = some t) :
    AckPhase t := by
  obtain ⟨hmay, v, hv, rfl⟩ := acked_step hstep
  rcases h with ⟨hopen, hzero⟩ | hinv | ⟨hend, hacks⟩
  · have hcovered : coverAfter s.session.tcb s.covered e = 0 := by
      rw [coverAfter_of_syn hopen.tcb.syn, hzero]
    rw [hcovered]
    have hne : ∀ p, e ≠ .send p := by
      rintro p rfl
      have hconn : s.session.tcb.connected = true := hmay
      rw [hopen.tcb.connected] at hconn
      cases hconn
    have hack : ∀ th p, e = .segment th p → AcksOurSyn s.session.tcb th p := by
      rintro th p rfl
      exact hok
    rcases hopen.step hne hack hv with ⟨f, rfl⟩ | hgiven | hopen' | hjust
    · have hsame : AcksOnly ⟨s.session, 0⟩ := AckPhase.acksOnly (.inl ⟨hopen, rfl⟩)
      exact .inr (.inr ⟨.inl (by simp), ⟨hsame.covered, hsame.bytes, hsame.una⟩⟩)
    · exact .inr (.inr ⟨.inr hgiven, acksOnly_of_givenUp hgiven (Nat.zero_le _)⟩)
    · exact .inl ⟨hopen', rfl⟩
    · exact .inr (.inl (JustEstablished.ackInv hjust rfl))
  · right
    left
    obtain ⟨hstream, hback⟩ := hinv.stream.step hv
    obtain ⟨-, hen, ⟨f, -, rfl⟩ | ⟨o, u, hu, rfl⟩⟩ := step_cases hv
    · -- The program stopped, and the connection is as it was.
      obtain ⟨hmore, hsent, hroom⟩ := hinv.cover hen
      refine ⟨hstream, hsent, hroom, fun hpending => ?_, fun hdone => ?_, fun hlive => ?_⟩
      · obtain ⟨m, hm, huna⟩ := hinv.pending hpending
        exact ⟨m, Nat.le_trans hm hmore, huna⟩
      · obtain ⟨m, hm, huna⟩ := hinv.done hdone
        exact ⟨m, Nat.le_trans hm (Nat.succ_le_succ hmore), huna⟩
      · obtain ⟨hsized, k, hk, hbytes⟩ := hinv.bytes hlive
        exact ⟨hsized, k, Nat.le_trans hk hmore, hbytes⟩
    · by_cases hsegment : ∃ th p, e = .segment th p
      · obtain ⟨th, p, rfl⟩ := hsegment
        obtain ⟨w, hw, heq⟩ := map_eq_ok.mp hu
        cases heq
        have hkeep := hinv.segment hen (by simpa [Session.accepts, Session.returns] using hstream)
          (by simpa [Session.accepts] using hback) hw
        simpa [Session.accepts, Session.returns] using hkeep
      · obtain ⟨hsettles, hstate⟩ := handle_settles
          (fun th p heq => hsegment ⟨th, p, heq⟩) hen hu
        refine hinv.settles hen hstream hback hsettles ?_
        rcases hstate with hst | hst
        · rw [hst]
          exact .refl _
        · rw [hst]
          exact goesOn_closedState _
  · obtain ⟨hrun, hen, hnext⟩ := step_cases hv
    rcases hend with hfault | hgiven
    · exact absurd hrun hfault
    · have hne : ∀ th p, e ≠ .segment th p := by
        rintro th p rfl
        simp [Tcb.enabled, hgiven.1] at hen
      have hcover : coverAfter s.session.tcb s.covered e = s.covered := by
        cases e with
        | segment th p => exact absurd rfl (hne th p)
        | _ => rfl
      rw [hcover]
      right
      right
      rcases hnext with ⟨f, -, rfl⟩ | ⟨o, u, hu, rfl⟩
      · exact ⟨.inl (by simp), acksOnly_of_givenUp hgiven hacks.covered⟩
      · obtain ⟨hsettles, hstate⟩ := handle_settles hne hen hu
        have hremoved : u.removed = true := by
          by_contra hlive
          have hlive' := hsettles.live (by simpa using hlive)
          rw [hgiven.1] at hlive'
          cases hlive'
        -- `close` moves on from ESTABLISHED and CLOSE_WAIT only.
        have hgiven' : GivenUp u := by
          refine ⟨hremoved, ?_⟩
          have hin := hgiven.2
          simp only [Tcb.inState] at hin ⊢
          rcases hstate with hst | hst
          · rw [hst]
            exact hin
          · rw [hst]
            revert hin
            cases s.session.tcb.state <;> decide
        refine ⟨.inr hgiven', acksOnly_of_givenUp hgiven' ?_⟩
        have hcovered := hacks.covered
        show s.covered ≤ (s.session.sent ++ s.session.accepts e).length
        rw [List.length_append]
        omega

/-- In a run of a connection that a listener opened, whatever segments arrive, a byte leaves only when
the peer acknowledged it, and `SND.UNA` lies behind our SYN from ESTABLISHED on, provided that the
segment that ends the handshake acknowledges our SYN. -/
theorem acksOnly_of_acksSyn {th : TcbHdr} {s : Session} (hopen : Session.PassiveOpen th s)
    (es : List TcbEvent) (h : Guarded (AckedSession.step tso) AcksSyn { session := s } es) :
    Always (AckedSession.step tso) AcksOnly { session := s } es :=
  always_of_guarded AckPhase (fun _ hphase => hphase.acksOnly)
    (fun _ _ _ hphase hok hstep => hphase.step hok hstep)
    (.inl ⟨opening_of_passiveOpen hopen, rfl⟩) h

end

/-- The handshake, and one byte that the peer acknowledges. -/
theorem acksOnly_first_byte :
    Always (AckedSession.step false) AcksOnly { session := { tcb := acceptedTcb } }
      [.segment (plainHdr 0 0 false) (List.replicate 20 0), .send [7], .getPacket,
        .segment (plainHdr 0 1 false) (List.replicate 20 0)] := by
  refine acksOnly_of_acksSyn passiveOpen_acceptedTcb _ ?_
  intro t ht
  refine ⟨fun _ _ _ _ _ => by decide, fun u hu => ⟨trivial, fun v hv => ⟨trivial, fun w hw => ?_⟩⟩⟩
  refine ⟨fun hst => ?_, trivial⟩
  have hstate : (run (AckedSession.step false) { session := { tcb := acceptedTcb } }
      [.segment (plainHdr 0 0 false) (List.replicate 20 0), .send [7], .getPacket]).map
      (fun t => t.session.tcb.state) = some .established := by
    decide +kernel
  have hrun : run (AckedSession.step false) { session := { tcb := acceptedTcb } }
      [.segment (plainHdr 0 0 false) (List.replicate 20 0), .send [7], .getPacket] = some v :=
    run_cons.mpr ⟨t, ht, run_cons.mpr ⟨u, hu, run_cons.mpr ⟨v, hv, rfl⟩⟩⟩
  rw [hrun, Option.map_some, hst] at hstate
  cases hstate

/-- A peer that acknowledges `ISS` in the handshake, and then our SYN. The second acknowledgment removes
a byte that the peer never acknowledged. -/
theorem not_acksOnly_of_iss :
    Session.PassiveOpen lastSyn { tcb := acceptedTcb } ∧
      ¬Always (AckedSession.step false) AcksOnly { session := { tcb := acceptedTcb } }
        [.segment (plainHdr 0 0xffffffff false) (List.replicate 20 0), .send [7], .getPacket,
          .segment (plainHdr 0 0 false) (List.replicate 20 0)] := by
  refine ⟨passiveOpen_acceptedTcb, fun halways => ?_⟩
  have hend : (run (AckedSession.step false) { session := { tcb := acceptedTcb } }
      [.segment (plainHdr 0 0xffffffff false) (List.replicate 20 0), .send [7], .getPacket,
        .segment (plainHdr 0 0 false) (List.replicate 20 0)]).map
      (fun t => decide (t.covered = 0 ∧ t.session.tcb.removed = false ∧ t.session.sent = [7] ∧
        dataBytes t.session.tcb.snd.data ++ t.session.tcb.snd.unsent.flatten = [])) = some true := by
    decide +kernel
  obtain ⟨t, ht, heq⟩ := Option.map_eq_some_iff.mp hend
  obtain ⟨hcovered, hlive, hsent, hbytes⟩ := of_decide_eq_true heq
  obtain ⟨k, hk, hdrop⟩ := (halways.last ht).bytes hlive
  have hzero : k = 0 := by omega
  rw [hbytes, hsent, hzero] at hdrop
  cases hdrop

end Netstar.Proofs.Net
