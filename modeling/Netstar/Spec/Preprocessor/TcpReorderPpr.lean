import Netstar.Spec.AsyncFlow.Util
import Netstar.Spec.Net.Tcp

/-!
# `Netstar.Spec.Preprocessor.TcpReorderPpr`: `tcp_reorder_ppr`

The preprocessor of the intrusion detector. It follows one direction of a TCP connection,
collects the payload in order in `_rcv_data`, and keeps segments that arrive early in
`_rcv_out_of_order`. `handlePacketSend` is given the frame of one packet, with its Ethernet, IP
and TCP headers.

A frame that is too short for a header makes the source read through a null pointer, and the
source asserts on the lengths it trims. These ends of the program are `PprError`s.

`segLen` is an `unsigned`, so the subtraction that computes it wraps at `2^32`.
-/

set_option autoImplicit false

namespace Netstar.Spec.Preprocessor

open Netstar.Spec.AsyncFlow
open Netstar.Spec.Net

/-- `tcp_reorder_events`. -/
inductive TcpReorderEvents where
  | pktIn
  | newData
  | abnormalConnection
  deriving DecidableEq, Repr

/-- The enumeration value. -/
def TcpReorderEvents.value : TcpReorderEvents → Nat
  | .pktIn => 0
  | .newData => 1
  | .abnormalConnection => 2

/-- The ways in which `handle_packet_send` stops the program. -/
inductive PprError where
  /-- A header lies outside the frame, and its pointer is null. -/
  | nullHeader
  /-- An assertion of `trim_front`, or the `abort()` of `packet_merger`. -/
  | merger (e : MergeError)
  /-- `assert(p.len() == seg_len)`. -/
  | lengthAssert
  deriving DecidableEq, Repr

/-- `tcp_reorder_ppr`. `tArmed` tells whether the expiry timer `_t` is armed. -/
structure TcpReorderPpr where
  tArmed : Bool
  seenSyn : Bool
  rcvNext : TcpSeq
  rcvInitial : TcpSeq
  rcvWindow : Nat
  rcvData : List Packet
  rcvOutOfOrder : SegMap TcpSeq
  abnormalDetected : Bool
  deriving DecidableEq, Repr

namespace TcpReorderPpr

/-- The constructor. `_rcv_next` and `_rcv_initial` have no initializer, so the two numbers are
arbitrary. -/
def create (next initial : TcpSeq) : TcpReorderPpr where
  tArmed := true
  seenSyn := false
  rcvNext := next
  rcvInitial := initial
  rcvWindow := 3737600
  rcvData := []
  rcvOutOfOrder := []
  abnormalDetected := false

/-- `segment_acceptable`. -/
def segmentAcceptable (s : TcpReorderPpr) (segSeq : TcpSeq) (segLen : Nat) : Bool :=
  let windowEnd := s.rcvNext.add s.rcvWindow
  let last := (segSeq.add segLen).add (-1)
  if segLen = 0 ∧ s.rcvWindow = 0 then
    segSeq = s.rcvNext
  else if segLen = 0 ∧ 0 < s.rcvWindow then
    s.rcvNext.le segSeq && segSeq.lt windowEnd
  else if 0 < segLen ∧ 0 < s.rcvWindow then
    (s.rcvNext.le segSeq && segSeq.lt windowEnd) || (s.rcvNext.le last && last.lt windowEnd)
  else
    false

/-- `insert_out_of_order`. -/
def insertOutOfOrder (s : TcpReorderPpr) (seg : TcpSeq) (p : Packet) :
    Except MergeError TcpReorderPpr := do
  let map ← merge s.rcvOutOfOrder seg p
  return { s with rcvOutOfOrder := map }

/-- `if (trim) { p.trim_front(trim); }`. -/
def trimFrontIf (p : Packet) (trim : Int) : Except MergeError Packet :=
  if trim ≠ 0 then trimFront p trim else .ok p

/-- The loop of `merge_out_of_order`: the next expected number, the data, and the rest of the
map. -/
def mergeOutOfOrderLoop (next : TcpSeq) (data : List Packet) :
    SegMap TcpSeq → Except MergeError (TcpSeq × List Packet × SegMap TcpSeq)
  | [] => .ok (next, data, [])
  | (segBeg, p) :: rest =>
    let segEnd := segBeg.add p.length
    if segBeg.le next && next.lt segEnd then do
      -- The segment covers the next expected byte: its part before that is trimmed.
      let trim := next.sub segBeg
      let q ← trimFrontIf p trim
      mergeOutOfOrderLoop (next.add (p.length - trim)) (data ++ [q]) rest
    else if segEnd.le next then
      -- All of it has been received before.
      mergeOutOfOrderLoop next data rest
    else
      .ok (next, data, (segBeg, p) :: rest)

/-- `merge_out_of_order`. The callers ignore its result. -/
def mergeOutOfOrder (s : TcpReorderPpr) : Except MergeError TcpReorderPpr := do
  let (next, data, map) ← mergeOutOfOrderLoop s.rcvNext s.rcvData s.rcvOutOfOrder
  return { s with rcvNext := next, rcvData := data, rcvOutOfOrder := map }

/-- `if (_t.armed()) { _t.cancel(); _t.arm(...); }`. -/
def rearm (s : TcpReorderPpr) : TcpReorderPpr := if s.tArmed then { s with tArmed := true } else s

/-- The event set of a packet that carries `pkt_in` and the given further events. -/
def events (evs : List TcpReorderEvents) : GeneratedEvents :=
  evs.foldl (fun ge ev => ge.eventHappen ev.value) .empty

/-- `sizeof(eth_hdr)` and `sizeof(ip_hdr)`. -/
def ethHdrLen : Nat := 14

/-- `sizeof(net::ip_hdr)`. -/
def ipHdrLen : Nat := 20

/-- The header reads at the start of `handle_packet_send`: the TCP header, and the length of
the Ethernet and IP headers in front of it. -/
def readHeaders (frame : List UInt8) : Except PprError (TcpHdr × Nat) :=
  if ethHdrLen + ipHdrLen ≤ frame.length then
    let ihl := (frame.getD ethHdrLen 0).toNat % 16
    let off := ethHdrLen + ihl * 4
    if off + TcpHdr.len ≤ frame.length then .ok (TcpHdr.read (frame.drop off), off)
    else .error .nullHeader
  else .error .nullHeader

/-- `handle_packet_send` after an acceptable segment has been cut down to its new part: `segSeq`
and `p` are the adjusted number and payload. -/
def acceptSegment (s : TcpReorderPpr) (h : TcpHdr) (segSeq : TcpSeq) (p : Packet) :
    Except PprError (TcpReorderPpr × GeneratedEvents) :=
  if segSeq ≠ s.rcvNext then do
    -- The segment is ahead of what is expected: it is kept, whatever its flags say.
    let s ← (s.insertOutOfOrder segSeq p).mapError .merger
    return (s.rearm, events [.pktIn])
  else if h.fRst then
    .ok ({ s with tArmed := false }, (events [.pktIn]).closeEventHappen)
  else if 0 < p.length then do
    let s := { s with rcvData := s.rcvData ++ [p], rcvNext := s.rcvNext.add p.length }
    let s ← s.mergeOutOfOrder.mapError .merger
    return (s.rearm, events [.newData, .pktIn])
  else
    .ok (s.rearm, events [.pktIn])

/-- The reconstruction block of `handle_packet_send`, which runs once a SYN was seen. -/
def reconstruct (s : TcpReorderPpr) (h : TcpHdr) (off : Nat) (frame : List UInt8) :
    Except PprError (TcpReorderPpr × GeneratedEvents) :=
  let headerLength := off + h.dataOffset * 4
  let segLen := (frame.length + 2 ^ 32 - headerLength) % 2 ^ 32
  if s.segmentAcceptable h.seq segLen then do
    let p ← (trimFront frame headerLength).mapError .merger
    if p.length ≠ segLen then .error .lengthAssert
    else if h.seq.lt s.rcvNext then do
      -- Ignore the part that was received before.
      let dup := min (s.rcvNext.raw - h.seq.raw).toNat segLen
      let p ← (trimFront p dup).mapError .merger
      s.acceptSegment h (h.seq.add dup) p
    else
      s.acceptSegment h h.seq p
  else
    .ok (s.rearm, events [.pktIn])

/-- `handle_packet_send`. -/
def handlePacketSend (s : TcpReorderPpr) (frame : List UInt8) :
    Except PprError (TcpReorderPpr × GeneratedEvents) :=
  if s.abnormalDetected then
    .ok (s.rearm, events [.abnormalConnection, .pktIn])
  else do
    let (h, off) ← readHeaders frame
    if !h.fSyn && !s.seenSyn then
      let s := { s with abnormalDetected := true, rcvOutOfOrder := [] }
      return (s.rearm, events [.abnormalConnection, .pktIn])
    else
      let s := if h.fSyn && !s.seenSyn then
          { s with seenSyn := true, rcvNext := h.seq.add 1, rcvInitial := h.seq }
        else s
      -- A packet that passed the check above has seen a SYN, so the source's
      -- `if (_seen_syn)` holds here.
      s.reconstruct h off frame

/-- `read_reordering_buffer`: the collected payload, and the state without it. -/
def readReorderingBuffer (s : TcpReorderPpr) : Packet × TcpReorderPpr :=
  (s.rcvData.flatten, { s with rcvData := [] })

end TcpReorderPpr

end Netstar.Spec.Preprocessor
