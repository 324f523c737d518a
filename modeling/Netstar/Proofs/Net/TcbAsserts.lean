import Netstar.Proofs.Net.TcbReceive
import Netstar.Spec.Net.Cwnd

/-!
# `Netstar.Proofs.Net.TcbAsserts`: the assertions of `output_one` and `get_packet`

`output_one` asserts that the peer's window is open, or that the segment is a probe of one byte. It
checks this for every segment that it makes, also for a SYN, a FIN or a pure ACK, which have no
payload. So the assertion fails as soon as one of these goes out while the window is closed, and the
peer decides when it closes the window. `WindowOpen` is the condition under which a step keeps it.

The assertion of `get_packet` never fails: `output_one` queues a segment in every state but CLOSED.
-/

set_option autoImplicit false

namespace Netstar.Proofs.Net

open Netstar.Lib
open Netstar.Spec.Net

/-- The fault is not one of the two assertions. -/
def OtherFault (f : TcbFault) : Prop := f ≠ .windowAssert ∧ f ≠ .packetqAssert

/-- The first segment in flight has one byte. -/
def OneByteFirst (data : List UnackedSegment) : Prop :=
  ∀ seg rest, data = seg :: rest → Tcb.segLen seg.p = 1

/-- A segment with new data, or without data, may go out: the window is open, or exactly one unsent
byte fits in the segment. -/
def TransmitFits (tso : Bool) (s : Tcb) : Prop :=
  s.state = .closed ∨ s.snd.window ≠ 0 ∨
    min (payloadRoom tso s.snd).toNat s.snd.unsent.flatten.length = 1

/-- The first segment in flight may go out again. -/
def RetransmitFits (s : Tcb) : Prop :=
  s.state = .closed ∨ s.snd.window ≠ 0 ∨ OneByteFirst s.snd.data

section
variable {s t : Tcb} {tso : Bool}

/-- An open window passes the assertion. -/
theorem windowAllows_of_open (h : s.snd.window ≠ 0) (len : BitVec 16) :
    s.windowAllows len = true := by
  have hpos : 0#32 < s.snd.window := by bv_omega
  simp [Tcb.windowAllows, hpos]

/-- A segment of one byte passes the assertion. -/
theorem windowAllows_of_one (len : BitVec 16) (h : len = 1) : s.windowAllows len = true := by
  by_cases hzero : s.snd.window = 0
  · simp [Tcb.windowAllows, hzero, h]
  · exact windowAllows_of_open hzero len

/-- What passes the assertion is sent. -/
theorem emit_sat {r : Bool} {p : Packet} (h : s.windowAllows (Tcb.segLen p) = true) :
    Sat OtherFault (fun _ => True) (s.emit r p) := by
  cases hemit : s.emit r p with
  | ok t => exact trivial
  | error f =>
    have := (emit_error.mp hemit).2
    rw [h] at this
    cases this

/-- A first transmission. -/
theorem outputOne_sat (hsized : Sized s.snd.unsent) (h : TransmitFits tso s) :
    Sat OtherFault (fun _ => True) (s.outputOne tso false) := by
  unfold Tcb.outputOne
  split
  · exact trivial
  · rename_i hopen
    obtain ⟨n, hn⟩ := getTransmitPacket_eq tso s.snd
    have htake : s.takePayload tso false = .ok (s.snd.getTransmitPacket tso) := rfl
    rw [htake, hn, ok_bind]
    apply emit_sat
    rcases h with hclosed | hwindow | hone
    · exact absurd hclosed hopen
    · exact windowAllows_of_open hwindow _
    · apply windowAllows_of_one
      have hcut := (cutUnsent_spec s.snd.unsent hsized (payloadRoom tso s.snd)).1
      have hlen : (Send.cutUnsent (payloadRoom tso s.snd) s.snd.unsent).1.length = 1 := by
        rw [hcut, List.length_take]
        exact hone
      rw [Tcb.segLen, packetLen, hlen]
      rfl

/-- A retransmission. -/
theorem outputOne_again_sat (h : RetransmitFits s) :
    Sat OtherFault (fun _ => True) (s.outputOne tso true) := by
  unfold Tcb.outputOne
  split
  · exact trivial
  · rename_i hopen
    cases hdata : s.snd.data with
    | nil =>
      have htake : s.takePayload tso true = .error .emptyFront := by simp [Tcb.takePayload, hdata]
      rw [htake]
      exact ⟨(fun h => by cases h), (fun h => by cases h)⟩
    | cons seg rest =>
      have htake : s.takePayload tso true = .ok (seg.p, s.snd) := by simp [Tcb.takePayload, hdata]
      rw [htake, ok_bind]
      apply emit_sat
      rcases h with hclosed | hwindow | hone
      · exact absurd hclosed hopen
      · exact windowAllows_of_open hwindow _
      · exact windowAllows_of_one _ (hone seg rest hdata)

/-- A fast retransmission passes the assertion when its segment fits. -/
theorem fastRetransmit_sat (h : RetransmitFits s) :
    Sat OtherFault (fun _ => True) (s.fastRetransmit tso) := by
  unfold Tcb.fastRetransmit
  split
  · exact trivial
  · rename_i seg rest hdata
    refine (outputOne_again_sat ?_).bind fun _ _ => trivial
    refine h.imp_right fun h => h.imp_right fun hone seg' rest' heq => ?_
    cases heq
    exact hone seg rest hdata

/-! ### Segments -/

/-- The window of the peer after a segment that acknowledges new data. -/
def windowAfter (th : TcbHdr) (segSeq : TcpSeq) (s : Send) : BitVec 32 :=
  if s.wl1.lt segSeq || (s.wl1 = segSeq && s.wl2.le th.ack) then scaleWindow th.window s.windowScale
  else s.window

/-- When the acknowledgment of a segment starts a fast retransmission, the window is open or the
segment that goes out has one byte. The first part is a partial acknowledgment in fast recovery, and
the second part is the third duplicate. -/
def FastRetransmitFits (th : TcbHdr) (segSeq : TcpSeq) (p : Packet) (s : Tcb) : Prop :=
  ((s.snd.unacknowledged.lt th.ack && th.ack.le s.snd.next) = true →
    ∀ acked snd, s.snd.dataSegmentAcked th.ack = .ok (acked, snd) →
      ¬snd.dupacks < 3 → snd.recover.lt th.ack = false →
        windowAfter th segSeq snd ≠ 0 ∨ OneByteFirst snd.data) ∧
  (s.isDuplicateAck th p = true → s.snd.dupacks + 1 = 3 →
    s.snd.recover.lt (th.ack.add (-1)) = true → s.snd.window ≠ 0 ∨ OneByteFirst s.snd.data)

/-- The error of the merger is another fault. -/
theorem otherFault_merger (e : MergeError) : OtherFault (.merger e) :=
  ⟨(fun h => nomatch h), (fun h => nomatch h)⟩

/-- Growing the window makes no such assertion. -/
theorem updateCwnd_sat (s : Send) (n : BitVec 32) :
    Sat OtherFault (fun _ => True) (s.updateCwnd n) := by
  simp only [Send.updateCwnd]
  split
  · exact trivial
  · split
    · exact ⟨(fun h => by cases h), (fun h => by cases h)⟩
    · exact trivial

/-- Removing acknowledged segments makes no such assertion. -/
theorem ackSegments_sat (segAck : TcpSeq) (data : List UnackedSegment) (acked : BitVec 32) (s : Send) :
    Sat OtherFault (fun _ => True) (Send.ackSegments segAck data acked s) := by
  induction data generalizing acked s with
  | nil => exact trivial
  | cons seg rest ih =>
    simp only [Send.ackSegments]
    split
    · exact (updateCwnd_sat _ _).bind fun u _ => ih _ _
    · exact trivial

/-- Trimming the first segment makes no such assertion. -/
theorem trimFirst_sat (n : Int) (data : List UnackedSegment) :
    Sat OtherFault (fun _ => True) (Send.trimFirst n data) := by
  cases data with
  | nil => exact trivial
  | cons seg rest => exact (Sat.mapError otherFault_merger _).bind fun _ _ => trivial

/-- `data_segment_acked` makes no such assertion. -/
theorem dataSegmentAcked_sat (segAck : TcpSeq) (s : Send) :
    Sat OtherFault (fun _ => True) (s.dataSegmentAcked segAck) := by
  refine (ackSegments_sat segAck s.data 0 s).bind fun ⟨acked, u⟩ _ => ?_
  simp only [Send.ackPartial]
  split
  · exact (trimFirst_sat _ _).bind fun data _ => (updateCwnd_sat _ _).bind fun _ _ => trivial
  · exact trivial

/-- Recovering from a loss passes the assertion when its retransmission fits. -/
theorem recoverFromAck_sat {segAck : TcpSeq} {acked : BitVec 32}
    (h : ¬s.snd.dupacks < 3 → s.snd.recover.lt segAck = false → RetransmitFits s) :
    Sat OtherFault (fun _ => True) (s.recoverFromAck tso segAck acked) := by
  simp only [Tcb.recoverFromAck]
  split
  · exact trivial
  · rename_i hdup
    split
    · exact trivial
    · rename_i hrecover
      exact (fastRetransmit_sat (h hdup (by simpa using hrecover))).bind fun _ _ => trivial

/-- An acknowledgment in ESTABLISHED passes the assertion when its retransmission fits. -/
theorem ackEstablished_sat {th : TcbHdr} {segSeq : TcpSeq} {p : Packet}
    (h : FastRetransmitFits th segSeq p s) :
    Sat OtherFault (fun _ => True) (s.ackEstablished tso th segSeq p) := by
  unfold Tcb.ackEstablished
  split
  · -- An acknowledgment of new data may retransmit in the fast recovery.
    rename_i hnew
    refine Sat.bind (P := fun _ => True) ?_ fun _ _ => trivial
    refine (dataSegmentAcked_sat th.ack s.snd).bind_result fun ⟨acked, snd⟩ hacked => ?_
    refine recoverFromAck_sat fun hdup hrecover => .inr ?_
    have hfits := h.1 hnew acked snd hacked
    unfold windowAfter at hfits
    split at hdup
    · rename_i hnewer
      rw [if_pos hnewer] at hrecover hfits ⊢
      exact hfits hdup hrecover
    · rename_i holder
      rw [if_neg holder] at hrecover hfits ⊢
      exact hfits hdup hrecover
  · split
    · rename_i hisdup
      refine Sat.bind (P := fun _ => True) ?_ fun _ _ => trivial
      simp only [Tcb.duplicateAck]
      split
      · exact trivial
      · split
        · -- The third duplicate retransmits, unless the recovery was entered for these bytes before.
          rename_i hthree
          refine Sat.bind (P := fun _ => True) ?_ fun _ _ => trivial
          split
          · rename_i hrecover
            exact fastRetransmit_sat (.inr (h.2 hisdup hthree hrecover))
          · exact trivial
        · split
          · exact trivial
          · exact trivial
    · split
      · exact trivial
      · split
        · exact trivial
        · exact trivial

/-- The text and the FIN of a segment make no such assertion. -/
theorem textAndFin_sat {th : TcbHdr} {segSeq : TcpSeq} {p : Packet} {d : Bool} :
    Sat OtherFault (fun _ => True) (s.textAndFin th segSeq p d) := by
  unfold Tcb.textAndFin
  split
  · exact trivial
  · refine Sat.bind (P := fun _ => True) ?_ fun _ _ => trivial
    split
    · unfold Tcb.takeText
      split
      · exact (Sat.mapError otherFault_merger _).bind fun _ _ => trivial
      · exact trivial
    · exact trivial

/-- A segment passes the assertion when its fast retransmission fits. -/
theorem handleSynchronized_sat {th : TcbHdr} {segSeq : TcpSeq} {p : Packet}
    (h : s.inState [.established, .closeWait] = true → FastRetransmitFits th segSeq p s) :
    Sat OtherFault (fun _ => True) (s.handleSynchronized tso th segSeq p) := by
  refine Sat.bind (P := fun _ => True) ?_ fun flow _ => ?_
  · split
    · rename_i hin
      exact ackEstablished_sat (h hin)
    · exact trivial
  · cases flow with
    | ret v => exact trivial
    | go v d =>
      dsimp only
      split
      · exact trivial
      · exact textAndFin_sat

/-- A segment behind the handshake passes the assertion when its fast retransmission fits. -/
theorem inputHandleOtherState_sat {th : TcbHdr} {p : Packet}
    (h : ∀ r, InSequence s th p r → th.fRst = false → th.fSyn = false → th.fAck = true →
      s.takesAck th.ack = true → FastRetransmitFits th s.rcv.next r s) :
    Sat OtherFault (fun _ => True) (s.inputHandleOtherState tso th p) := by
  refine (Sat.mapError otherFault_merger _).bind_result fun q hq => ?_
  have hq' := mapError_eq_ok.mp hq
  split
  · rename_i hacc
    dsimp only
    split
    · rename_i hseq
      have hin : InSequence s th p (s.rcv.trimDuplicate th.seq q).2 :=
        ⟨q, hq', hacc, Prod.ext hseq rfl⟩
      rw [hseq]
      unfold Tcb.handleInOrder
      split
      · exact trivial
      · rename_i hreceived
        split
        · exact trivial
        · rename_i hopen
          split
          · exact trivial
          · split
            · exact trivial
            · rename_i hsyn
              split
              · exact trivial
              · rename_i hack
                -- In a state that takes the acknowledgment, RST has been looked at before.
                have hrst : s.takesAck th.ack = true → th.fRst = false := by
                  intro htakes
                  cases hrst : th.fRst with
                  | false => rfl
                  | true =>
                    rw [hrst] at hreceived hopen
                    simp [Tcb.takesAck, Tcb.inState] at htakes hreceived hopen
                    rcases htakes with (hst | hst) | ⟨hst, -⟩
                    · exact absurd hst hopen.1
                    · exact absurd hst hopen.2.2.2
                    · exact absurd hst hreceived
                have hfits (htakes : s.takesAck th.ack = true) :=
                  h _ hin (hrst htakes) (by simpa using hsyn) (by simpa using hack) htakes
                unfold Tcb.ackAndText
                rcases ackSynReceived_cases th.ack s with
                  ⟨hst, hgo⟩ | ⟨hst, hacked, hgo⟩ | ⟨-, -, hret⟩
                · simp only [hgo]
                  exact handleSynchronized_sat fun hin => hfits (by simp [Tcb.takesAck, hin])
                · simp only [hgo]
                  refine handleSynchronized_sat fun _ => hfits ?_
                  rw [Tcb.takesAck, hacked]
                  simp [Tcb.inState, hst]
                · simp only [hret]
                  exact trivial
    · exact (Sat.mapError otherFault_merger _).bind fun _ _ => trivial
  · exact trivial

/-- The answer to our SYN makes no such assertion. -/
theorem inputHandleSynSentState_sat {th : TcbHdr} {p : Packet} :
    Sat OtherFault (fun _ => True) (s.inputHandleSynSentState th p) := by
  refine Sat.bind (P := fun _ => True) ?_ fun options _ => ?_
  · unfold Tcb.optionBytes
    split
    · exact trivial
    · exact ⟨(fun h => by cases h), (fun h => by cases h)⟩
  · split
    · exact trivial
    · dsimp only
      split
      · exact trivial
      · split
        · exact trivial
        · split
          all_goals
            split
            · exact trivial
            · exact trivial

/-! ### Timers and polls -/

/-- Whether a retransmission fits depends on the state, the window and the data in flight. -/
theorem retransmitFits_of_eq (h : RetransmitFits s) (hst : t.state = s.state)
    (hwindow : t.snd.window = s.snd.window) (hdata : t.snd.data = s.snd.data) : RetransmitFits t := by
  rw [RetransmitFits, hst, hwindow, hdata]
  exact h

/-- Retransmitting data passes the assertion when it fits. -/
theorem retransmitData_sat (h : ¬dataLimit s → RetransmitFits s) :
    Sat OtherFault (fun _ => True) (s.retransmitData tso) := by
  unfold Tcb.retransmitData
  split
  · exact trivial
  · rename_i seg rest hdata
    dsimp only
    split
    · rename_i hlt
      refine Sat.bind (outputOne_again_sat ?_) fun _ _ => trivial
      have hfits := h fun ⟨seg', rest', heq, hge⟩ => by
        rw [hdata] at heq
        cases heq
        exact hge hlt
      refine hfits.imp_right fun hrest => hrest.imp_right fun hone seg' rest' heq => ?_
      cases heq
      exact hone seg rest hdata
    · exact trivial

/-- Retransmitting our FIN and then data passes the assertion when it fits. -/
theorem retransmitFinData_sat (h : ¬finLimit s → ¬dataLimit s → RetransmitFits s) :
    Sat OtherFault (fun _ => True) (s.retransmitFinData tso) := by
  simp only [Tcb.retransmitFinData]
  split
  · split
    · rename_i hlt
      refine retransmitData_sat fun hdata => ?_
      refine retransmitFits_of_eq (h (fun hlimit => hlimit.2 hlt) fun hlimit => hdata ?_) ?_ ?_ ?_
      · obtain ⟨seg, rest, hseg, hge⟩ := hlimit
        exact ⟨seg, rest, by rw [snd_outputUpdateRto]; exact hseg, hge⟩
      · rw [state_outputUpdateRto]
      · rw [snd_outputUpdateRto]
      · rw [snd_outputUpdateRto]
    · exact trivial
  · rename_i hfin
    exact retransmitData_sat (h fun hlimit => hfin hlimit.1)

/-- The retransmission timer passes the assertion when what it sends fits. -/
theorem retransmit_sat (h : ¬synLimit s → ¬finLimit s → ¬dataLimit s → RetransmitFits s) :
    Sat OtherFault (fun _ => True) (s.retransmit tso) := by
  simp only [Tcb.retransmit]
  split
  · split
    · rename_i hlt
      refine retransmitFinData_sat fun hfin hdata => ?_
      refine retransmitFits_of_eq
        (h (fun hlimit => hlimit.2 hlt) (fun hlimit => hfin ?_) fun hlimit => hdata ?_) ?_ ?_ ?_
      · simp only [finLimit, Tcb.finNeedsOn, Tcb.inState, state_outputUpdateRto,
          snd_outputUpdateRto] at hlimit ⊢
        exact hlimit
      · obtain ⟨seg, rest, hseg, hge⟩ := hlimit
        exact ⟨seg, rest, by rw [snd_outputUpdateRto]; exact hseg, hge⟩
      · rw [state_outputUpdateRto]
      · rw [snd_outputUpdateRto]
      · rw [snd_outputUpdateRto]
    · exact trivial
  · rename_i hsyn
    exact retransmitFinData_sat (h fun hlimit => hsyn hlimit.1)

/-- `close` does not change the room for a payload. -/
theorem payloadRoom_closing (tso closed : Bool) (n : Nat) (s : Send) :
    payloadRoom tso { s with closed := closed, closeReady := n } = payloadRoom tso s := by
  have hroom : (Send.canSend { s with closed := closed, closeReady := n }).1 = s.canSend.1 := by
    unfold Send.canSend
    dsimp only
    split
    · rfl
    · split
      · rfl
      · split
        · rfl
        · rfl
  rw [payloadRoom, payloadRoom, hroom]
  rfl

/-- The rest of `close` passes the assertion when what it sends fits. -/
theorem closeContinuation_sat (hsized : Sized s.snd.unsent) (h : TransmitFits tso s) :
    Sat OtherFault (fun _ => True) (s.closeContinuation tso) := by
  refine Sat.bind (P := fun _ => True) ?_ fun _ _ => trivial
  rw [closedState_eq]
  refine outputOne_sat hsized ?_
  rcases h with hclosed | hwindow | hone
  · left
    show closedState s.state = .closed
    rw [hclosed]
    rfl
  · exact .inr (.inl hwindow)
  · right
    right
    show min (payloadRoom tso { s.snd with closed := true }).toNat s.snd.unsent.flatten.length = 1
    rw [payloadRoom_closing tso true s.snd.closeReady s.snd]
    exact hone

/-- Behind `output_one` there is a segment to take, or the connection is closed. -/
theorem getPacket_sat (hsized : Sized s.snd.unsent) (h : s.packetq = [] → TransmitFits tso s) :
    Sat OtherFault (fun _ => True) (s.getPacket tso) := by
  refine Sat.bind_result (P := fun _ => True) ?_ fun u hu => ?_
  · split
    · rename_i hempty
      exact outputOne_sat hsized (h hempty)
    · exact trivial
  · split
    · exact trivial
    · rename_i hopen
      split
      · rename_i hempty
        exfalso
        split at hu
        · rcases outputOne_ok hu with ⟨hclosed, rfl⟩ | ⟨-, p, snd, -, hemit⟩
          · exact hopen (by simpa [Tcb.inState] using hclosed)
          · obtain ⟨delayed, armed, -, rfl⟩ := emit_ok hemit
            simp at hempty
        · rename_i hne
          cases hu
          exact hne hempty
      · exact trivial

end

/-! ### Runs -/

/-- The step does not send into a closed window, except for one byte. -/
def WindowOpen (tso : Bool) (s : Session) : TcbEvent → Prop
  | .segment th p => ∀ r, InSequence s.tcb th p r → th.fRst = false → th.fSyn = false →
      th.fAck = true → s.tcb.takesAck th.ack = true → FastRetransmitFits th s.tcb.rcv.next r s.tcb
  | .getPacket => s.tcb.packetq = [] → TransmitFits tso s.tcb
  | .closeContinuation => TransmitFits tso s.tcb
  | .persist => TransmitFits tso { s.tcb with snd := { s.tcb.snd with windowProbe := true } }
  | .retransmit => ¬synLimit s.tcb → ¬finLimit s.tcb → ¬dataLimit s.tcb → RetransmitFits s.tcb
  | _ => True

/-- An event for which the window is open passes the assertion. -/
theorem handle_sat {s : Session} {tso : Bool} {e : TcbEvent} (hsized : Sized s.tcb.snd.unsent)
    (h : WindowOpen tso s e) : Sat OtherFault (fun _ => True) (s.tcb.handle tso e) := by
  cases e with
  | segment th p =>
    refine Sat.map ?_
    unfold Tcb.inputHandle
    split
    · exact inputHandleSynSentState_sat
    · exact inputHandleOtherState_sat h
  | closeContinuation =>
    refine Sat.map (closeContinuation_sat hsized ?_)
    refine Or.imp_right (Or.imp_right fun hone => ?_) h
    rw [← payloadRoom_closing tso s.tcb.snd.closed (s.tcb.snd.closeReady - 1) s.tcb.snd] at hone
    exact hone
  | getPacket => exact getPacket_sat hsized h
  | retransmit => exact Sat.map (retransmit_sat h)
  | persist =>
    refine Sat.map ?_
    unfold Tcb.persist
    exact Sat.bind (outputOne_sat hsized h) fun _ _ => trivial
  | send | read | waitForData | closeRead | close | shutdownConnect | arpQueueFull | arpTimeout
  | delayedAck => exact trivial

/-! ### Unsent packets and segments in flight -/

/-- No unsent data is sized. -/
theorem sized_nil : Sized [] := fun _ hq => nomatch hq

/-- A property of the packets that wait and of the segments in flight that no function of a connection
breaks. -/
structure Stable (P : List Packet → List UnackedSegment → Prop) : Prop where
  nil : P [] []
  keeps : ∀ {s t : Send}, SendKeeps s t → P s.unsent s.data → P t.unsent t.data
  send : ∀ {unsent data} {p : Packet}, p.length < 2 ^ 32 → P unsent data → P (unsent ++ [p]) data

section
variable {P : List Packet → List UnackedSegment → Prop} {s t : Tcb} {tso : Bool}

/-- A segment behind the handshake keeps what is stable. -/
theorem Stable.inputHandleOtherState (hP : Stable P) {th : TcbHdr} {p : Packet}
    (h : P s.snd.unsent s.snd.data) (hh : s.inputHandleOtherState tso th p = .ok t) :
    P t.snd.unsent t.snd.data := by
  obtain ⟨q, -, ⟨-, rfl⟩ | ⟨-, segSeq, r, -, ⟨-, hin⟩ | ⟨-, rcv, -, rfl⟩⟩⟩ :=
    inputHandleOtherState_ok hh
  · rw [snd_output]
    exact h
  · -- A removed connection has no packets left.
    rcases handleInOrder_cases hin with
      ⟨-, -, rfl⟩ | ⟨-, -, rfl⟩ | ⟨-, -, rfl⟩ | ⟨-, rfl⟩ | rfl | ⟨-, htext⟩
    · exact hP.nil
    · exact hP.nil
    · exact hP.nil
    · exact hP.nil
    · exact h
    · have hsync : ∀ u : Tcb, P u.snd.unsent u.snd.data → u.state ≠ .synReceived →
          u.handleSynchronized tso th segSeq r = .ok t → P t.snd.unsent t.snd.data := by
        intro u hu hst hrun
        rcases handleSynchronized_cases hrun hst with
          hmoves | ⟨v, -, ⟨-, -, -, -, rfl⟩ | ⟨-, -, rfl⟩ | ⟨-, -, rfl⟩⟩
        · exact hP.keeps hmoves.calm.snd hu
        · exact hP.nil
        · exact hP.nil
        · exact hP.nil
      unfold Tcb.ackAndText at htext
      rcases ackSynReceived_cases th.ack s with ⟨hst, hgo⟩ | ⟨-, -, hgo⟩ | ⟨-, -, hret⟩
      · simp only [hgo] at htext
        exact hsync s h hst htext
      · simp only [hgo] at htext
        exact hsync (synAcked s) h (fun hst => nomatch hst) htext
      · simp only [hret] at htext
        cases htext
        exact h
  · rw [snd_output]
    exact h

/-- The answer to our SYN keeps what is stable. -/
theorem Stable.inputHandleSynSentState (hP : Stable P) {th : TcbHdr} {p : Packet}
    (h : P s.snd.unsent s.snd.data) (hh : s.inputHandleSynSentState th p = .ok t) :
    P t.snd.unsent t.snd.data := by
  rcases inputHandleSynSentState_cases hh with
    rfl | ⟨-, -, -, -, rfl⟩ | ⟨-, -, ⟨-, options, rfl⟩ | ⟨-, rfl⟩⟩
  · exact h
  · exact hP.nil
  · rw [snd_output]
    exact h
  · rw [Tcb.doSynReceived, snd_output]
    exact h

/-- `send` keeps what is stable. -/
theorem Stable.sendPacket (hP : Stable P) {p : Packet} (h : P s.snd.unsent s.snd.data)
    (hp : p.length < 2 ^ 32) : P (s.send p).snd.unsent (s.send p).snd.data := by
  rcases send_cases s p with ⟨-, heq⟩ | ⟨-, u, hkeeps, -, heq⟩
  · rw [heq]
    exact h
  · have hjoined : P (s.snd.unsent ++ [p]) s.snd.data := hP.send hp h
    have hu : P u.snd.unsent u.snd.data := hP.keeps (s := (s.enqueue p).snd) hkeeps.snd hjoined
    rw [heq]
    show P u.snd.waitSendAvailable.unsent u.snd.waitSendAvailable.data
    unfold Send.waitSendAvailable
    split
    · exact hu
    · exact hu

/-- `close` keeps what is said about the data. -/
theorem stable_close (h : P s.snd.unsent s.snd.data) :
    P s.close.snd.unsent s.close.snd.data := by
  unfold Tcb.close
  split
  · exact h
  · show P s.snd.waitForAllDataAcked.unsent s.snd.waitForAllDataAcked.data
    unfold Send.waitForAllDataAcked
    split
    · exact h
    · exact h

/-- One event. The packets that wait are those that `send` took, or parts of them, and the segments in
flight were cut out of them. -/
theorem Stable.handle (hP : Stable P) {e : TcbEvent} {o : Option OutSegment}
    (h : P s.snd.unsent s.snd.data) (hen : s.enabled e = true)
    (hh : s.handle tso e = .ok (o, t)) : P t.snd.unsent t.snd.data := by
  cases e with
  | segment th p =>
    obtain ⟨u, hu, heq⟩ := map_eq_ok.mp hh
    cases heq
    unfold Tcb.inputHandle at hu
    split at hu
    · exact hP.inputHandleSynSentState h hu
    · exact hP.inputHandleOtherState h hu
  | send p =>
    cases hh
    exact hP.sendPacket h (by simpa [Tcb.enabled] using hen)
  | read | closeRead | arpQueueFull =>
    cases hh
    exact h
  | waitForData =>
    cases hh
    unfold Tcb.waitForData
    split
    · exact h
    · exact h
  | close =>
    cases hh
    exact stable_close h
  | shutdownConnect =>
    cases hh
    unfold Tcb.shutdownConnect
    split
    -- The connection is removed, and both lists are empty.
    · exact hP.nil
    · exact stable_close h
  | closeContinuation =>
    obtain ⟨u, hu, heq⟩ := map_eq_ok.mp hh
    cases heq
    exact hP.keeps (closeContinuation_cases hu).snd h
  | getPacket => exact hP.keeps (keeps_getPacket hh).snd h
  | arpTimeout =>
    cases hh
    unfold Tcb.arpTimeout
    dsimp only
    split
    · exact hP.nil
    · exact h
  | retransmit =>
    obtain ⟨u, hu, heq⟩ := map_eq_ok.mp hh
    cases heq
    rcases retransmit_cases hu with hkeeps | ⟨-, v, -, rfl⟩ | ⟨-, v, -, rfl⟩
    · exact hP.keeps hkeeps.snd h
    · exact hP.nil
    · exact hP.nil
  | persist =>
    obtain ⟨u, hu, heq⟩ := map_eq_ok.mp hh
    cases heq
    exact hP.keeps (keeps_persist hu).snd h
  | delayedAck =>
    cases hh
    exact hP.keeps (keeps_delayedAck _).snd h

end

/-- The packets that wait have their `unsigned` lengths. -/
theorem stable_sized : Stable fun unsent _ => Sized unsent where
  nil := sized_nil
  keeps := fun h => h.sized
  send := by
    intro unsent _ p hp h q hq
    rcases List.mem_append.mp hq with hq | hq
    · exact h q hq
    · rw [List.mem_singleton.mp hq]
      exact hp

/-- Neither assertion has failed. -/
def AssertsHold (s : Session) : Prop := ∀ f, s.fault = some f → OtherFault f

/-- In a run from the start of a connection in which no step sends into a closed window, except for
one byte, neither the assertion of `output_one` nor the assertion of `get_packet` fails. -/
theorem asserts_hold_of_windowOpen {s : Session} {tso : Bool}
    (hopen : (∃ th, Session.PassiveOpen th s) ∨ Session.ActiveOpen s) (es : List TcbEvent)
    (h : Guarded (Session.step tso) (WindowOpen tso) s es) :
    Always (Session.step tso) AssertsHold s es := by
  refine always_of_guarded (fun s => Sized s.tcb.snd.unsent ∧ AssertsHold s) (fun _ hinv => hinv.2)
    (fun s e t hinv hok hstep => ?_) ⟨?_, ?_⟩ h
  · obtain ⟨hnone, hen, ⟨f, hf, rfl⟩ | ⟨o, u, hu, rfl⟩⟩ := step_cases hstep
    · refine ⟨hinv.1, fun f' hf' => ?_⟩
      cases hf'
      have hsat := handle_sat hinv.1 hok
      rw [hf] at hsat
      exact hsat
    · exact ⟨stable_sized.handle hinv.1 hen hu, hinv.2⟩
  · rcases hopen with ⟨th, g, p, isn, t, ht, rfl⟩ | ⟨g, isn, rfl⟩
    · obtain ⟨options, -, hret⟩ := bind_eq_ok.mp ht
      cases hret
      dsimp only [Tcb.doSynReceived]
      rw [snd_output]
      exact sized_nil
    · dsimp only [Tcb.connect, Tcb.doSynSent]
      rw [snd_output]
      exact sized_nil
  · rcases hopen with ⟨th, g, p, isn, t, ht, rfl⟩ | ⟨g, isn, rfl⟩
    · exact fun f hf => nomatch hf
    · exact fun f hf => nomatch hf

/-- The SYN and ACK of a connection whose peer has an open window. -/
theorem asserts_hold_synAck :
    Always (Session.step false) AssertsHold { tcb := acceptedTcb } [.getPacket, .retransmit] := by
  refine asserts_hold_of_windowOpen (.inl ⟨lastSyn, passiveOpen_acceptedTcb⟩) _ ?_
  intro t ht
  refine ⟨fun _ => .inr (.inl (by decide)), fun u hu => ⟨fun _ _ _ => .inr ?_, trivial⟩⟩
  have hwindow : (Session.step false { tcb := acceptedTcb } .getPacket).map (·.tcb.snd.window)
      = some 64000 := by decide
  rw [ht] at hwindow
  have hwindow' : t.tcb.snd.window = 64000 := Option.some.inj hwindow
  rw [hwindow']
  exact .inl (by decide)

/-- A peer whose SYN carries a closed window stops the program: the SYN and ACK has no payload. -/
theorem synAck_into_closed_window :
    ∃ s, Session.PassiveOpen { lastSyn with window := 0 } s ∧
      ¬Always (Session.step false) AssertsHold s [.getPacket] := by
  let g : Tcb := { acceptedTcb with snd := { acceptedTcb.snd with window := 0, ssthresh := 0 } }
  refine ⟨{ tcb := g }, ⟨g, List.replicate 20 0, ⟨0xffffffff⟩, g, by decide, rfl⟩, fun halways => ?_⟩
  have hfault : (Session.step false { tcb := g } .getPacket).map (·.fault)
      = some (some .windowAssert) := by decide
  obtain ⟨t, ht, hf⟩ := Option.map_eq_some_iff.mp hfault
  exact (halways.2 t ht .windowAssert hf).1 rfl

end Netstar.Proofs.Net
