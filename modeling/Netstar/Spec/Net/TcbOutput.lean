import Netstar.Spec.Net.Tcb

/-!
# `Netstar.Spec.Net.TcbOutput`: how a connection sends

`get_transmit_packet` cuts the next payload out of the unsent packets, and `output_one` makes a
segment of it and queues it in `_packetq`. The three timers, the calls of the user and `get_packet`
all go through these two functions.

The parameter `tso` is `tx_tso` of `hw_features`.
-/

set_option autoImplicit false

namespace Netstar.Spec.Net

/-- `hw_features::mtu`. No driver sets it, so it has its default value. -/
def mtu : BitVec 16 := 1500

/-- `hw_features::max_packet_len`, `ip_packet_len_max - eth_hdr_len`. No driver sets it either. -/
def maxPacketLen : BitVec 16 := 65535 - 14

/-- `net::tcp_hdr_len_min + InetTraits::ip_hdr_len_min`. -/
def hdrLenMin : Nat := 20 + 20

namespace Send

/-- `flight_size`. -/
def flightSize (s : Send) : BitVec 32 :=
  s.data.foldl (fun size seg => size + packetLen seg.p) 0

/-- `can_send`. In the limited transmit phase it also counts what it returned. -/
def canSend (s : Send) : BitVec 32 × Send :=
  if s.windowProbe then (1, s)
  else
    let x := umin ((s.unacknowledged.raw + s.window) - s.next.raw) s.unsentLen
    let x := umin s.cwnd x
    if s.dupacks = 1 ∨ s.dupacks = 2 then
      let flight := s.flightSize
      let most := s.cwnd + 2 * s.mss.zeroExtend 32
      let x := if flight ≤ most then umin x (most - flight) else 0
      (x, { s with limitedTransfer := s.limitedTransfer + x })
    else if 3 ≤ s.dupacks then
      (umin (s.mss.zeroExtend 32) x, s)
    else
      (x, s)

/-- The number of payload bytes that fit in one segment, `len` of `get_transmit_packet`. -/
def maxPayload (tso : Bool) (s : Send) : BitVec 32 :=
  if tso then maxPacketLen.zeroExtend 32 - BitVec.ofNat 32 hdrLenMin
  else (umin (mtu - BitVec.ofNat 16 hdrLenMin) s.mss).zeroExtend 32

/-- The loop of the hard case of `get_transmit_packet` and the split behind it. `p` is what the
segment holds so far, and `room` is what may still be added. The result is the payload and the
packets that stay unsent. -/
def mergeUnsent (p : Packet) (room : BitVec 32) : List Packet → Packet × List Packet
  | [] => (p, [])
  | q :: rest =>
    if packetLen q ≤ room then
      mergeUnsent (p ++ q) (room - packetLen q) rest
    else if room ≠ 0 then
      (p ++ q.take room.toNat, q.drop room.toNat :: rest)
    else
      (p, q :: rest)

/-- The payload that `get_transmit_packet` takes, and what stays unsent. -/
def cutUnsent (room : BitVec 32) : List Packet → Packet × List Packet
  | [] => ([], [])
  | [q] =>
    if packetLen q ≤ room then (q, []) else (q.take room.toNat, [q.drop room.toNat])
  | q :: rest =>
    if room < packetLen q then (q.take room.toNat, q.drop room.toNat :: rest)
    else mergeUnsent q (room - packetLen q) rest

/-- `get_transmit_packet`. -/
def getTransmitPacket (tso : Bool) (s : Send) : Packet × Send :=
  if s.unsent = [] then ([], s)
  else
    let (x, s) := s.canSend
    let (p, unsent) := cutUnsent (umin x (s.maxPayload tso)) s.unsent
    (p, { s with unsent := unsent, unsentLen := s.unsentLen - packetLen p })

/-- `signal_send_available`, with `max_queue_space` of 212992 bytes. -/
def signalSendAvailable (s : Send) : Send :=
  if s.sendAvailablePromise ∧ s.currentQueueSpace < 212992 then
    { s with sendAvailablePromise := false }
  else s

/-- `signal_all_data_acked`. The continuation of the `close` that waits becomes ready. -/
def signalAllDataAcked (s : Send) : Send :=
  if s.allDataAckedPromise ∧ s.unsentLen = 0 then
    { s with allDataAckedPromise := false, closeReady := s.closeReady + 1 }
  else s

/-- `exit_fast_recovery`. -/
def exitFastRecovery (s : Send) : Send :=
  { s with dupacks := 0, limitedTransfer := 0, partialAck := 0 }

/-- `wait_send_available`. A new promise replaces an older one. -/
def waitSendAvailable (s : Send) : Send :=
  if s.currentQueueSpace < 212992 then s else { s with sendAvailablePromise := true }

/-- `wait_for_all_data_acked` and the `then` of `close`. -/
def waitForAllDataAcked (s : Send) : Send :=
  if s.data = [] ∧ s.unsentLen = 0 then { s with closeReady := s.closeReady + 1 }
  else { s with allDataAckedPromise := true }

end Send

namespace Tcb

/-- `output`. -/
def output (s : Tcb) : Tcb :=
  if s.pollActive then s else { s with pollActive := true, pollRequested := true }

/-- `can_send`, on the whole state. -/
def canSend (s : Tcb) : BitVec 32 × Tcb :=
  let (x, snd) := s.snd.canSend
  (x, { s with snd := snd })

/-- `syn_needs_on`. -/
def synNeedsOn (s : Tcb) : Bool := s.inState [.synSent, .synReceived]

/-- `fin_needs_on`. -/
def finNeedsOn (s : Tcb) : Bool :=
  s.inState [.finWait1, .closing, .lastAck] && s.snd.closed && s.snd.unsentLen = 0

/-- `ack_needs_on`. -/
def ackNeedsOn (s : Tcb) : Bool := !s.inState [.closed, .listen, .synSent]

/-- `foreign_will_not_send`. -/
def foreignWillNotSend (s : Tcb) : Bool :=
  s.inState [.closing, .timeWait, .closeWait, .lastAck, .closed]

/-- `clear_delayed_ack`. -/
def clearDelayedAck (s : Tcb) : Tcb := { s with delayedAckArmed := false }

/-- `cleanup`. It leaves the state, `unsent_len`, `current_queue_space` and the persist timer as they
are. -/
def cleanup (s : Tcb) : Tcb :=
  { s with
    snd := { s.snd with unsent := [], data := [] }
    rcv := { s.rcv with outOfOrder := [], data := [] }
    retransmitArmed := false
    delayedAckArmed := false
    removed := true }

/-- `_connect_done.set_value()` or `_connect_done.set_exception(..)`. -/
def resolveConnectDone (s : Tcb) : Tcb := { s with connectDone := s.connectDone + 1 }

/-- The payload of the segment that `output_one` makes, and the send side without it. -/
def takePayload (tso dataRetransmit : Bool) (s : Tcb) : Except TcbFault (Packet × Send) :=
  if dataRetransmit then
    match s.snd.data with
    | [] => .error .emptyFront
    | seg :: _ => .ok (seg.p, s.snd)
  else .ok (s.snd.getTransmitPacket tso)

/-- The segment that `output_one` makes of a payload. -/
def makeSegment (s : Tcb) (seq : TcpSeq) (p : Packet) : OutSegment where
  seq := seq
  ack := s.rcv.next
  fSyn := s.synNeedsOn
  fAck := s.ackNeedsOn
  fFin := s.finNeedsOn
  window := (s.rcv.window >>> (s.rcv.windowScale.toNat % 32)).truncate 16
  payload := p

/-- The assertion at the end of `output_one`: with a closed window only a probe of one byte may go
out. -/
def windowAllows (s : Tcb) (len : BitVec 16) : Bool := s.snd.window > 0 || (s.snd.window = 0 && len = 1)

/-- The length of a payload as `output_one` sees it, a `uint16_t`. -/
def segLen (p : Packet) : BitVec 16 := (packetLen p).truncate 16

/-- The sequence number of the segment. -/
def emitSeq (dataRetransmit : Bool) (s : Tcb) : TcpSeq :=
  if dataRetransmit then s.snd.unacknowledged
  else if s.synNeedsOn then s.snd.initial else s.snd.next

/-- The send side behind `_snd.next += len` and `_snd.data.emplace_back(..)`. -/
def emitSend (dataRetransmit : Bool) (p : Packet) (s : Send) : Send :=
  if dataRetransmit then s
  else
    { s with
      next := s.next.add (segLen p).toNat
      data := if segLen p = 0 then s.data else s.data ++ [⟨p, segLen p, 0⟩] }

/-- `output_one` from `uint16_t len = p.len()` on. A segment that needs an acknowledgment starts the
retransmission timer. -/
def emit (dataRetransmit : Bool) (p : Packet) (s : Tcb) : Except TcbFault Tcb :=
  let seg := s.makeSegment (s.emitSeq dataRetransmit) p
  let s :=
    { s with
      snd := emitSend dataRetransmit p s.snd
      delayedAckArmed := s.delayedAckArmed && !seg.fAck
      retransmitArmed := s.retransmitArmed ||
        (!dataRetransmit && (segLen p ≠ 0 || seg.fSyn || seg.fFin)) }
  if s.windowAllows (segLen p) then .ok { s with packetq := s.packetq ++ [seg] }
  else .error .windowAssert

/-- `output_one`. -/
def outputOne (tso : Bool) (s : Tcb) (dataRetransmit : Bool) : Except TcbFault Tcb :=
  if s.state = .closed then .ok s
  else do
    let (p, snd) ← s.takePayload tso dataRetransmit
    { s with snd := snd }.emit dataRetransmit p

/-! ### Calls of the user -/

/-- The packet joins the unsent ones. -/
def enqueue (s : Tcb) (p : Packet) : Tcb :=
  { s with snd := { s.snd with
    currentQueueSpace := s.snd.currentQueueSpace + p.length
    unsentLen := s.snd.unsentLen + packetLen p
    unsent := s.snd.unsent ++ [p] } }

/-- `if (can_send() > 0) { output(); }`. -/
def outputIfCanSend (s : Tcb) : Tcb :=
  let (x, s) := s.canSend
  if 0 < x then s.output else s

/-- `send`. -/
def send (s : Tcb) (p : Packet) : Tcb :=
  if s.snd.closed || s.inState [.closed] then s
  else
    let s := (s.enqueue p).outputIfCanSend
    { s with snd := s.snd.waitSendAvailable }

/-- `wait_for_data`. -/
def waitForData (s : Tcb) : Tcb :=
  if s.rcv.data ≠ [] || s.foreignWillNotSend then s
  else { s with rcv := { s.rcv with dataReceivedPromise := true } }

/-- `abort_reader`. -/
def abortReader (s : Tcb) : Tcb := { s with rcv := { s.rcv with dataReceivedPromise := false } }

/-- `read`. -/
def read (s : Tcb) : Packet × Tcb :=
  (s.rcv.data.flatten, { s with rcv := { s.rcv with data := [] } })

/-- `close`, up to the future that its continuation waits for. -/
def close (s : Tcb) : Tcb :=
  if s.inState [.closed] || s.snd.closed then s
  else { s with snd := s.snd.waitForAllDataAcked }

/-- The continuation of `close`. -/
def closeContinuation (tso : Bool) (s : Tcb) : Except TcbFault Tcb := do
  let s := { s with snd := { s.snd with closed := true } }
  let s :=
    if s.inState [.closeWait] then { s with state := .lastAck }
    else if s.inState [.established] then { s with state := .finWait1 }
    else s
  let s ← s.outputOne tso false
  return s.output

/-- `connection::shutdown_connect`. -/
def shutdownConnect (s : Tcb) : Tcb :=
  if s.synNeedsOn then s.resolveConnectDone.cleanup else s.abortReader.close

/-! ### Timers and polls -/

/-- The callback of `_delayed_ack`. -/
def delayedAck (s : Tcb) : Tcb := { s with nrFullSegReceived := 0 }.output

/-- `persist`. -/
def persist (tso : Bool) (s : Tcb) : Except TcbFault Tcb := do
  let s := { s with snd := { s.snd with
    windowProbe := true
    zeroWindowProbingOut := s.snd.zeroWindowProbingOut + 1 } }
  let s ← s.outputOne tso false
  let s := { s with snd := { s.snd with windowProbe := false } }
  let s := s.output
  return { s with persistArmed := true }

/-- `_max_nr_retransmit`. -/
def maxNrRetransmit : BitVec 32 := 5

/-- `output_update_rto` of `retransmit`. -/
def outputUpdateRto (s : Tcb) : Tcb := { s.output with retransmitArmed := true }

/-- The slow start of `retransmit`. `seg` is the earliest segment in flight. -/
def slowStart (seg : UnackedSegment) (s : Send) : Send :=
  let smss : BitVec 32 := s.mss.zeroExtend 32
  let ssthresh := if seg.nrTransmits = 0 then umax (s.flightSize / 2) (2 * smss) else s.ssthresh
  { s with ssthresh := ssthresh, recover := s.next.add (-1), cwnd := smss }.exitFastRecovery

/-- `retransmit` on the data. -/
def retransmitData (tso : Bool) (s : Tcb) : Except TcbFault Tcb :=
  match s.snd.data with
  | [] => .ok s
  | seg :: rest =>
    let snd := slowStart seg s.snd
    if seg.nrTransmits < maxNrRetransmit then do
      let data := { seg with nrTransmits := seg.nrTransmits + 1 } :: rest
      let s ← { s with snd := { snd with data := data } }.outputOne tso true
      return s.outputUpdateRto
    else .ok { s with snd := snd }.cleanup

/-- `retransmit` behind the SYN: the FIN and the data. -/
def retransmitFinData (tso : Bool) (s : Tcb) : Except TcbFault Tcb :=
  if s.finNeedsOn then
    let n := s.snd.finRetransmit
    let s := { s with snd := { s.snd with finRetransmit := n + 1 } }
    if n < maxNrRetransmit then s.outputUpdateRto.retransmitData tso else .ok s.cleanup
  else s.retransmitData tso

/-- `retransmit`. -/
def retransmit (tso : Bool) (s : Tcb) : Except TcbFault Tcb :=
  if s.synNeedsOn then
    let n := s.snd.synRetransmit
    let s := { s with snd := { s.snd with synRetransmit := n + 1 } }
    if n < maxNrRetransmit then s.outputUpdateRto.retransmitFinData tso
    else .ok s.resolveConnectDone.cleanup
  else s.retransmitFinData tso

/-- `fast_retransmit`. -/
def fastRetransmit (tso : Bool) (s : Tcb) : Except TcbFault Tcb :=
  match s.snd.data with
  | [] => .ok s
  | seg :: rest => do
    let data := { seg with nrTransmits := seg.nrTransmits + 1 } :: rest
    let s ← { s with snd := { s.snd with data := data } }.outputOne tso true
    return s.output

/-- The end of `get_packet`. A connection that has more to send goes back to the polling set. -/
def pollAgain (s : Tcb) : Tcb :=
  -- `||` and `&&` stop early, so `can_send` is called in the last case only.
  if s.packetq ≠ [] then s.output
  else if s.snd.dupacks < 3 then
    let (x, s) := s.canSend
    if 0 < x ∧ 0 < s.snd.window then s.output else s
  else s

/-- `get_packet`. -/
def getPacket (tso : Bool) (s : Tcb) : Except TcbFault (Option OutSegment × Tcb) := do
  let s := { s with pollActive := false, pollRequested := false }
  let s ← (if s.packetq = [] then s.outputOne tso false else .ok s)
  if s.inState [.closed] then .ok (none, s)
  else
    match s.packetq with
    | [] => .error .packetqAssert
    | seg :: rest => .ok (some seg, { s with packetq := rest }.pollAgain)

/-- The handler of `output` for `arp_queue_full_error`. -/
def arpQueueFull (s : Tcb) : Tcb :=
  { s with pollRequested := false, pollActive := false, retransmitArmed := true }

/-- The handler of `output` for `arp_timeout_error`. `_poll_active` stays set. -/
def arpTimeout (s : Tcb) : Tcb :=
  let s := { s with pollRequested := false }
  if s.inState [.synSent] then s.resolveConnectDone.cleanup else s

end Tcb

end Netstar.Spec.Net
