import Netstar.Spec.Net.TcbOutput

/-!
# `Netstar.Spec.Net.TcbInput`: how a connection handles a segment

`tcp::received` passes a segment to one of three handlers: `input_handle_listen_state` for a new
connection, `input_handle_syn_sent_state`, and `input_handle_other_state`. The last one goes through
the steps of RFC 793, and its parts here carry the numbers of the comments in the source. A part
that can return early has the result `Flow`.

A handler gets the header and the packet with the header still in front.
-/

set_option autoImplicit false

namespace Netstar.Spec.Net

/-- How a part of `input_handle_other_state` ends: the handler returns, or it goes on. The flag is
`do_output_data`. -/
inductive Flow where
  | ret (s : Tcb)
  | go (s : Tcb) (doOutputData : Bool)
  deriving DecidableEq, Repr

namespace Receive

/-- `segment_acceptable`. -/
def segmentAcceptable (r : Receive) (segSeq : TcpSeq) (segLen : Nat) : Bool :=
  let windowEnd := r.next.add r.window.toNat
  let last := (segSeq.add segLen).add (-1)
  if segLen = 0 ∧ r.window = 0 then
    segSeq = r.next
  else if segLen = 0 ∧ 0 < r.window.toNat then
    r.next.le segSeq && segSeq.lt windowEnd
  else if 0 < segLen ∧ 0 < r.window.toNat then
    (r.next.le segSeq && segSeq.lt windowEnd) || (r.next.le last && last.lt windowEnd)
  else
    false

/-- The part of a segment that was not received before, with its sequence number. -/
def trimDuplicate (r : Receive) (segSeq : TcpSeq) (p : Packet) : TcpSeq × Packet :=
  if segSeq.lt r.next then
    let dup := min (r.next.raw - segSeq.raw).toNat p.length
    (segSeq.add dup, p.drop dup)
  else (segSeq, p)

/-- `insert_out_of_order`. -/
def insertOutOfOrder (r : Receive) (seg : TcpSeq) (p : Packet) : Except MergeError Receive := do
  let map ← merge r.outOfOrder seg p
  return { r with outOfOrder := map }

/-- The loop of `merge_out_of_order`: the next expected number, the data, the rest of the map, and
whether a segment was merged. -/
def mergeOutOfOrderLoop (next : TcpSeq) (data : List Packet) (merged : Bool) :
    SegMap TcpSeq → Except MergeError (TcpSeq × List Packet × SegMap TcpSeq × Bool)
  | [] => .ok (next, data, [], merged)
  | (segBeg, p) :: rest =>
    let segEnd := segBeg.add p.length
    if segBeg.le next && next.lt segEnd then do
      -- The segment covers the next expected byte: its part before that is trimmed.
      let trim := next.sub segBeg
      let q ← (if trim ≠ 0 then trimFront p trim else .ok p)
      mergeOutOfOrderLoop (next.add (p.length - trim)) (data ++ [q]) true rest
    else if segEnd.le next then
      -- All of it has been received before.
      mergeOutOfOrderLoop next data merged rest
    else
      .ok (next, data, (segBeg, p) :: rest, merged)

/-- `merge_out_of_order`. -/
def mergeOutOfOrder (r : Receive) : Except MergeError (Bool × Receive) := do
  let (next, data, map, merged) ← mergeOutOfOrderLoop r.next r.data false r.outOfOrder
  return (merged, { r with next := next, data := data, outOfOrder := map })

end Receive

namespace Send

/-- `update_cwnd`. -/
def updateCwnd (s : Send) (ackedBytes : BitVec 32) : Except TcbFault Send :=
  let smss : BitVec 32 := s.mss.zeroExtend 32
  if s.cwnd < s.ssthresh then .ok { s with cwnd := s.cwnd + umin ackedBytes smss }
  else if s.cwnd = 0 then .error .divideByZero
  else .ok { s with cwnd := s.cwnd + umax 1 (smss * smss / s.cwnd) }

/-- The loop of `data_segment_acked` over the segments in `_snd.data`. -/
def ackSegments (segAck : TcpSeq) :
    List UnackedSegment → BitVec 32 → Send → Except TcbFault (BitVec 32 × Send)
  | [], acked, s => .ok (acked, { s with data := [] })
  | seg :: rest, acked, s =>
    let una := s.unacknowledged.add seg.p.length
    if una.le segAck then do
      let s ← { s with unacknowledged := una }.updateCwnd (packetLen seg.p)
      let s := { s with currentQueueSpace := s.currentQueueSpace - seg.dataLen.toNat }
      ackSegments segAck rest (acked + packetLen seg.p) s.signalSendAvailable
    else .ok (acked, { s with data := seg :: rest })

/-- `unacked_seg.p.trim_front(acked_bytes)`, when there is a first segment. -/
def trimFirst (ackedBytes : Int) : List UnackedSegment → Except TcbFault (List UnackedSegment)
  | [] => .ok []
  | seg :: rest => do
    let p ← (trimFront seg.p ackedBytes).mapError .merger
    return { seg with p := p } :: rest

/-- The rest of `data_segment_acked`: a partial acknowledgment of the first segment. -/
def ackPartial (segAck : TcpSeq) (acked : BitVec 32) (s : Send) :
    Except TcbFault (BitVec 32 × Send) :=
  if s.unacknowledged.lt segAck then do
    let ackedBytes := segAck.sub s.unacknowledged
    let data ← trimFirst ackedBytes s.data
    let s ← { s with data := data, unacknowledged := segAck }.updateCwnd (BitVec.ofInt 32 ackedBytes)
    return (acked + BitVec.ofInt 32 ackedBytes, s)
  else .ok (acked, s)

/-- `data_segment_acked`. -/
def dataSegmentAcked (segAck : TcpSeq) (s : Send) : Except TcbFault (BitVec 32 × Send) := do
  let (acked, s) ← ackSegments segAck s.data 0 s
  s.ackPartial segAck acked

end Send

namespace Tcb

/-- `local_mss`. -/
def localMss : BitVec 16 := mtu - BitVec.ofNat 16 hdrLenMin

/-- `do_setup_isn`, with the number that `get_isn` returned. -/
def doSetupIsn (s : Tcb) (isn : TcpSeq) : Tcb :=
  { s with snd := { s.snd with
    initial := isn, unacknowledged := isn, next := isn.add 1, recover := isn } }

/-- `do_syn_sent`. -/
def doSynSent (s : Tcb) : Tcb := { s with state := .synSent }.output

/-- `do_syn_received`. -/
def doSynReceived (s : Tcb) : Tcb := { s with state := .synReceived }.output

/-- `do_established`. -/
def doEstablished (s : Tcb) : Tcb := { s with state := .established }.resolveConnectDone

/-- `do_reset`: the three promises get an exception. -/
def doReset (s : Tcb) : Tcb :=
  let s := { s with state := .closed }.cleanup
  { s with
    rcv := { s.rcv with dataReceivedPromise := false }
    snd := { s.snd with allDataAckedPromise := false, sendAvailablePromise := false } }

/-- `do_time_wait`. -/
def doTimeWait (s : Tcb) : Tcb := { s with state := .timeWait }.cleanup

/-- `do_closed`. -/
def doClosed (s : Tcb) : Tcb := { s with state := .closed }.cleanup

/-- `do_local_fin_acked`. -/
def doLocalFinAcked (s : Tcb) : Tcb :=
  { s with snd := { s.snd with
    unacknowledged := s.snd.unacknowledged.add 1, next := s.snd.next.add 1 } }

/-- `signal_data_received`. -/
def signalDataReceived (s : Tcb) : Tcb := { s with rcv := { s.rcv with dataReceivedPromise := false } }

/-- `init_from_options`, on the packet from its option area on. -/
def initFromOptions (th : TcbHdr) (options : List UInt8) (s : Tcb) : Tcb :=
  let option := s.option.parse options (th.dataOffset * 4 - TcpHdr.len)
  let window := scaleWindow th.window option.remoteWinScale
  let mss : BitVec 32 := option.remoteMss.zeroExtend 32
  { s with
    option := option
    snd := { s.snd with
      windowScale := option.remoteWinScale
      mss := option.remoteMss
      window := window
      wl1 := th.seq
      wl2 := th.ack
      cwnd := if 2190 < mss then 2 * mss else if 1095 < mss ∧ mss ≤ 2190 then 3 * mss else 4 * mss
      ssthresh := window }
    rcv := { s.rcv with
      windowScale := option.localWinScale
      mss := localMss
      window := 29200 <<< option.localWinScale.toNat } }

/-- The start of the handlers that read options: `get_header` and `trim_front`. The result is the
packet from its option area on. -/
def optionBytes (th : TcbHdr) (p : Packet) : Except TcbFault (List UInt8) :=
  if th.dataOffset * 4 ≤ p.length then .ok (p.drop TcpHdr.len) else .error .nullHeader

/-! ### New connections -/

/-- `connect`. -/
def connect (s : Tcb) (isn : TcpSeq) : Tcb :=
  let s := s.doSetupIsn isn
  { s with
    option := { s.option with localWinScale := 7 }
    rcv := { s.rcv with windowScale := 7, mss := localMss, window := 29200 <<< 7 } }.doSynSent

/-- `input_handle_listen_state`. -/
def inputHandleListenState (th : TcbHdr) (p : Packet) (isn : TcpSeq) (s : Tcb) :
    Except TcbFault Tcb := do
  let options ← optionBytes th p
  let s := { s with rcv := { s.rcv with next := th.seq.add 1, initial := th.seq } }
  return ((s.doSetupIsn isn).initFromOptions th options).doSynReceived

/-- `input_handle_syn_sent_state`. -/
def inputHandleSynSentState (th : TcbHdr) (p : Packet) (s : Tcb) : Except TcbFault Tcb := do
  let options ← optionBytes th p
  if th.fAck && (th.ack.le s.snd.initial || s.snd.next.lt th.ack) then return s
  let acceptable := th.fAck && s.snd.unacknowledged.le th.ack && th.ack.le s.snd.next
  if th.fRst then return (if acceptable then s.doReset else s)
  if !th.fSyn then return s
  let s := { s with rcv := { s.rcv with next := th.seq.add 1, initial := th.seq } }
  let s := if th.fAck then { s with snd := { s.snd with unacknowledged := th.ack } } else s
  if s.snd.initial.lt s.snd.unacknowledged then
    return (s.initFromOptions th options).doEstablished.output
  else
    return s.doSynReceived

/-! ### 4.5: the acknowledgment -/

/-- `update_window` of `input_handle_other_state`. -/
def updateWindow (th : TcbHdr) (segSeq : TcpSeq) (s : Tcb) : Tcb :=
  let window := scaleWindow th.window s.snd.windowScale
  { s with
    snd := { s.snd with window := window, wl1 := segSeq, wl2 := th.ack, zeroWindowProbingOut := 0 }
    persistArmed := window = 0 }

/-- `set_retransmit_timer` of `input_handle_other_state`. -/
def setRetransmitTimer (s : Tcb) : Tcb :=
  if s.snd.data = [] then { s with retransmitArmed := false, snd := s.snd.signalAllDataAcked }
  else { s with retransmitArmed := true }

/-- The acknowledgment of new data, behind `data_segment_acked` and the window update. -/
def recoverFromAck (tso : Bool) (segAck : TcpSeq) (ackedBytes : BitVec 32) (s : Tcb) :
    Except TcbFault Tcb :=
  let smss : BitVec 32 := s.snd.mss.zeroExtend 32
  if s.snd.dupacks < 3 then
    .ok { s with snd := s.snd.exitFastRecovery }.setRetransmitTimer
  else if s.snd.recover.lt segAck then
    -- a full acknowledgment ends the fast recovery
    let cwnd := umin s.snd.ssthresh (umax s.snd.flightSize smss + smss)
    .ok { s with snd := { s.snd with cwnd := cwnd }.exitFastRecovery }.setRetransmitTimer
  else do
    -- After a partial acknowledgment the window is deflated by what was acknowledged.
    let s ← s.fastRetransmit tso
    let cwnd := s.snd.cwnd - ackedBytes
    let cwnd := if smss ≤ ackedBytes then cwnd + smss else cwnd
    let s := { s with snd := { s.snd with cwnd := cwnd, partialAck := s.snd.partialAck + 1 } }
    return { s with retransmitArmed := s.retransmitArmed || s.snd.partialAck = 1 }

/-- The acknowledgment of new data. -/
def ackNewData (tso : Bool) (th : TcbHdr) (segSeq : TcpSeq) (s : Tcb) : Except TcbFault Tcb := do
  let (ackedBytes, snd) ← s.snd.dataSegmentAcked th.ack
  let s := { s with snd := snd }
  let s :=
    if s.snd.wl1.lt segSeq || (s.snd.wl1 = segSeq && s.snd.wl2.le th.ack) then s.updateWindow th segSeq
    else s
  s.recoverFromAck tso th.ack ackedBytes

/-- The segment counts as a duplicate acknowledgment. -/
def isDuplicateAck (th : TcbHdr) (p : Packet) (s : Tcb) : Bool :=
  let packetsOut := s.snd.next.sub s.snd.unacknowledged - s.snd.zeroWindowProbingOut.toNat
  0 < packetsOut && s.snd.data ≠ [] && p.length = 0 && !th.fFin && !th.fSyn &&
    th.ack = s.snd.unacknowledged && scaleWindow th.window s.snd.windowScale = s.snd.window

/-- A duplicate acknowledgment. The flag is `do_output_data`. -/
def duplicateAck (tso : Bool) (segAck : TcpSeq) (s : Tcb) : Except TcbFault (Tcb × Bool) :=
  let smss : BitVec 32 := s.snd.mss.zeroExtend 32
  let s := { s with snd := { s.snd with dupacks := s.snd.dupacks + 1 } }
  -- limited transmit
  if s.snd.dupacks = 1 ∨ s.snd.dupacks = 2 then .ok (s, true)
  else if s.snd.dupacks = 3 then do
    let s ←
      (if s.snd.recover.lt (segAck.add (-1)) then
        let ssthresh := umax ((s.snd.flightSize - s.snd.limitedTransfer) / 2) (2 * smss)
        { s with snd := { s.snd with
          recover := s.snd.next.add (-1), ssthresh := ssthresh } }.fastRetransmit tso
      else .ok s)
    return ({ s with snd := { s.snd with cwnd := s.snd.ssthresh + 3 * smss } }, false)
  -- Every further duplicate inflates the window by one segment.
  else if 3 < s.snd.dupacks then .ok ({ s with snd := { s.snd with cwnd := s.snd.cwnd + smss } }, true)
  else .ok (s, false)

/-- The acknowledgment in ESTABLISHED and in CLOSE_WAIT. -/
def ackEstablished (tso : Bool) (th : TcbHdr) (segSeq : TcpSeq) (p : Packet) (s : Tcb) :
    Except TcbFault Flow :=
  if s.snd.unacknowledged.lt th.ack && th.ack.le s.snd.next then do
    let s ← s.ackNewData tso th segSeq
    return .go s true
  else if s.isDuplicateAck th p then do
    let (s, doOutputData) ← s.duplicateAck tso th.ack
    return .go s doOutputData
  else if s.snd.next.lt th.ack then .ok (.ret s.output)
  else if s.snd.window = 0 ∧ 0 < th.window then .ok (.go (s.updateWindow th segSeq) true)
  else .ok (.go s false)

/-- The acknowledgment in SYN_RECEIVED. -/
def ackSynReceived (segAck : TcpSeq) (s : Tcb) : Flow :=
  if s.inState [.synReceived] then
    if s.snd.unacknowledged.le segAck && segAck.le s.snd.next then
      .go { s.doEstablished with connected := true } false
    else .ret s
  else .go s false

/-- The acknowledgment in the states after our FIN. -/
def ackFin (segAck : TcpSeq) (doOutputData : Bool) (s : Tcb) : Flow :=
  let finAcked := segAck = s.snd.next.add 1
  if s.inState [.finWait1] then
    .go (if finAcked then { s with state := .finWait2 }.doLocalFinAcked else s) doOutputData
  else if s.inState [.closing] then
    .ret (if finAcked then s.doLocalFinAcked.doTimeWait else s)
  else if s.inState [.lastAck] then
    if finAcked then .ret s.doLocalFinAcked.doClosed else .go s doOutputData
  else .go s doOutputData

/-! ### 4.7 and 4.8: the text and the FIN -/

/-- `should_send_ack`. Its parameter is a `uint16_t`. -/
def shouldSendAck (segLen : BitVec 16) (s : Tcb) : Bool × Tcb :=
  let reset := { s with nrFullSegReceived := 0, delayedAckArmed := false }
  if s.rcv.mss < segLen then (true, reset)
  else if segLen = s.rcv.mss ∧ 1 ≤ s.nrFullSegReceived then (true, reset)
  else
    let s := if segLen = s.rcv.mss then { s with nrFullSegReceived := s.nrFullSegReceived + 1 } else s
    (false, { s with delayedAckArmed := true })

/-- The text of a segment that starts at `RCV.NXT`, and whether `do_output` is set. -/
def takeText (p : Packet) (s : Tcb) : Except TcbFault (Bool × Tcb) :=
  if 0 < p.length then do
    let rcv := { s.rcv with data := s.rcv.data ++ [p], next := s.rcv.next.add p.length }
    let (merged, rcv) ← rcv.mergeOutOfOrder.mapError .merger
    let s := { s with rcv := rcv }.signalDataReceived
    return (if merged then (true, s) else s.shouldSendAck (packetLen p |>.truncate 16))
  else .ok (false, s)

/-- The end of `input_handle_other_state`. -/
def finishInput (doOutput doOutputData : Bool) (s : Tcb) : Tcb :=
  if doOutput then s.clearDelayedAck.output
  else if doOutputData then
    let (x, s) := s.canSend
    if x ≠ 0 then s.clearDelayedAck.output else s
  else s

/-- The FIN of a segment that ends before `finSeq`. -/
def takeFin (finSeq : TcpSeq) (doOutput doOutputData : Bool) (s : Tcb) : Tcb :=
  if s.inState [.closed, .listen, .synSent] then s
  else if finSeq = s.rcv.next then
    let s := { s with rcv := { s.rcv with next := finSeq.add 1 } }
    let s := s.signalDataReceived.clearDelayedAck.output
    if s.inState [.synReceived, .established] then
      { s with state := .closeWait }.finishInput false doOutputData
    else if s.inState [.finWait1] then { s with state := .closing }.finishInput false doOutputData
    else if s.inState [.finWait2] then s.doTimeWait
    else s.finishInput false doOutputData
  else s.finishInput doOutput doOutputData

/-- The text and the FIN. -/
def textAndFin (th : TcbHdr) (segSeq : TcpSeq) (p : Packet) (doOutputData : Bool) (s : Tcb) :
    Except TcbFault Tcb :=
  if s.inState [.closeWait, .closing, .lastAck, .timeWait] then .ok s
  else do
    let (doOutput, s) ←
      (if s.inState [.established, .finWait1, .finWait2] then s.takeText p else .ok (false, s))
    return if th.fFin then s.takeFin (segSeq.add p.length) doOutput doOutputData
      else s.finishInput doOutput doOutputData

/-! ### The handler -/

/-- `input_handle_other_state` behind the acknowledgment of our SYN. -/
def handleSynchronized (tso : Bool) (th : TcbHdr) (segSeq : TcpSeq) (p : Packet) (s : Tcb) :
    Except TcbFault Tcb := do
  let flow ← (if s.inState [.established, .closeWait] then s.ackEstablished tso th segSeq p
    else .ok (.go s false))
  match flow with
  | .ret s => .ok s
  | .go s doOutputData =>
    match s.ackFin th.ack doOutputData with
    | .ret s => .ok s
    | .go s doOutputData => s.textAndFin th segSeq p doOutputData

/-- `input_handle_other_state` from the check of the ACK field on. -/
def ackAndText (tso : Bool) (th : TcbHdr) (segSeq : TcpSeq) (p : Packet) (s : Tcb) :
    Except TcbFault Tcb :=
  match s.ackSynReceived th.ack with
  | .ret s => .ok s
  | .go s _ => s.handleSynchronized tso th segSeq p

/-- `input_handle_other_state` on a segment that starts at `RCV.NXT`. -/
def handleInOrder (tso : Bool) (th : TcbHdr) (segSeq : TcpSeq) (p : Packet) (s : Tcb) :
    Except TcbFault Tcb :=
  if th.fRst && s.inState [.synReceived] then .ok s.resolveConnectDone.doReset
  else if th.fRst && s.inState [.established, .finWait1, .finWait2, .closeWait] then .ok s.doReset
  else if th.fRst && s.inState [.closing, .lastAck, .timeWait] then .ok s.doClosed
  else if th.fSyn then .ok s.doReset
  else if !th.fAck then .ok s
  else s.ackAndText tso th segSeq p

/-- `input_handle_other_state`. -/
def inputHandleOtherState (tso : Bool) (th : TcbHdr) (p : Packet) (s : Tcb) :
    Except TcbFault Tcb := do
  let p ← (trimFront p (th.dataOffset * 4)).mapError .merger
  if s.rcv.segmentAcceptable th.seq p.length then
    let (segSeq, p) := s.rcv.trimDuplicate th.seq p
    if segSeq = s.rcv.next then
      s.handleInOrder tso th segSeq p
    else do
      let rcv ← (s.rcv.insertOutOfOrder segSeq p).mapError .merger
      return { s with rcv := rcv }.output
  else
    return s.output

end Tcb

end Netstar.Spec.Net
