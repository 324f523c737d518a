import Netstar.Spec.Net.TcbSession

/-!
# `Netstar.Spec.Net.Cwnd`: the congestion window over the integers

`_snd.cwnd` is a `uint32_t`, and the source changes it in six places: the initial window, slow start
and congestion avoidance in `update_cwnd`, the third duplicate acknowledgment, the later ones, the
acknowledgment that ends the fast recovery, a partial one, and the timeout.

This file gives the same changes over the integers. It is not translated from the source: `exact` is
the window as the arithmetic of the source means it, and everything else that a change reads is taken
from the connection. `CwndSession` runs both side by side.
-/

set_option autoImplicit false

namespace Netstar.Spec.Net

/-- The initial window. -/
def initialWindow (smss : Nat) : Nat :=
  if 2190 < smss then 2 * smss else if 1095 < smss then 3 * smss else 4 * smss

/-- One acknowledged segment of `n` bytes: slow start, or congestion avoidance. -/
def growOne (ssthresh smss : Nat) (c : Int) (n : Nat) : Int :=
  if c < ssthresh then c + min n smss else c + max 1 (smss * smss / c)

/-- The segments that one acknowledgment covers. -/
def grow (ssthresh smss : Nat) (c : Int) (lens : List Nat) : Int :=
  lens.foldl (growOne ssthresh smss) c

/-- The numbers of bytes for which `data_segment_acked` calls `update_cwnd`: whole segments, and the
part of the next one. -/
def ackedLens (segAck : TcpSeq) : TcpSeq → List UnackedSegment → List Nat
  | una, [] => if una.lt segAck then [(segAck.raw - una.raw).toNat] else []
  | una, seg :: rest =>
    if (una.add seg.p.length).le segAck then
      (packetLen seg.p).toNat :: ackedLens segAck (una.add seg.p.length) rest
    else if una.lt segAck then [(segAck.raw - una.raw).toNat]
    else []

/-- The segments that stay in flight. -/
def remaining (segAck : TcpSeq) : TcpSeq → List UnackedSegment → List UnackedSegment
  | _, [] => []
  | una, seg :: rest =>
    if (una.add seg.p.length).le segAck then remaining segAck (una.add seg.p.length) rest
    else if una.lt segAck then { seg with p := seg.p.drop (segAck.raw - una.raw).toNat } :: rest
    else seg :: rest

namespace Send

/-- The bytes for which an acknowledgment calls `update_cwnd`. -/
def acked (s : Send) (segAck : TcpSeq) : List Nat := ackedLens segAck s.unacknowledged s.data

/-- The window as slow start and congestion avoidance grow it for an acknowledgment. -/
def grown (s : Send) (segAck : TcpSeq) (c : Int) : Int :=
  grow s.ssthresh.toNat s.mss.toNat c (s.acked segAck)

/-- The flight size behind an acknowledgment. -/
def flightAfter (s : Send) (segAck : TcpSeq) : Nat :=
  { s with data := remaining segAck s.unacknowledged s.data }.flightSize.toNat

/-- `ssthresh` behind the third duplicate acknowledgment: half of the flight size without the bytes of
limited transmit, which is negative when these are more. -/
def ssthreshAfter (s : Send) (segAck : TcpSeq) : Int :=
  if s.recover.lt (segAck.add (-1)) then
    max (((s.flightSize.toNat : Int) - s.limitedTransfer.toNat) / 2) (2 * s.mss.toNat)
  else s.ssthresh.toNat

/-- The acknowledgment of new data. In the fast recovery it ends the recovery, or it is a partial one
and deflates the window. -/
def exactAck (s : Send) (segAck : TcpSeq) (c : Int) : Int :=
  if s.dupacks < 3 then s.grown segAck c
  else if s.recover.lt segAck then
    min s.ssthresh.toNat (max (s.flightAfter segAck) s.mss.toNat + s.mss.toNat : Nat)
  else
    s.grown segAck c - (s.acked segAck).sum
      + (if s.mss.toNat ≤ (s.acked segAck).sum then s.mss.toNat else 0 : Nat)

/-- A duplicate acknowledgment. -/
def exactDuplicate (s : Send) (segAck : TcpSeq) (c : Int) : Int :=
  if s.dupacks + 1 = 3 then s.ssthreshAfter segAck + 3 * s.mss.toNat
  else if 3 < s.dupacks + 1 then c + s.mss.toNat
  else c

end Send

namespace Tcb

/-- The ACK field reaches the code of ESTABLISHED. -/
def takesAck (s : Tcb) (segAck : TcpSeq) : Bool :=
  s.inState [.established, .closeWait] || (s.inState [.synReceived] &&
    (s.snd.unacknowledged.le segAck && segAck.le s.snd.next))

/-- The text of a segment whose acknowledgment `input_handle_other_state` processes as in
ESTABLISHED. -/
def acknowledgment (s : Tcb) (th : TcbHdr) (p : Packet) : Option Packet :=
  match trimFront p (th.dataOffset * 4) with
  | .error _ => none
  | .ok q =>
    let (segSeq, r) := s.rcv.trimDuplicate th.seq q
    if s.rcv.segmentAcceptable th.seq q.length && segSeq = s.rcv.next &&
        !th.fRst && !th.fSyn && th.fAck && s.takesAck th.ack then some r
    else none

/-- A segment in SYN_SENT takes the connection to ESTABLISHED. -/
def answersSyn (s : Tcb) (th : TcbHdr) (p : Packet) : Bool :=
  th.dataOffset * 4 ≤ p.length &&
    !(th.fAck && (th.ack.le s.snd.initial || s.snd.next.lt th.ack)) && !th.fRst && th.fSyn &&
    s.snd.initial.lt (if th.fAck then th.ack else s.snd.unacknowledged)

/-- The options of a segment. -/
def parsedOption (s : Tcb) (th : TcbHdr) (p : Packet) : TcpOption :=
  s.option.parse (p.drop TcpHdr.len) (th.dataOffset * 4 - TcpHdr.len)

/-- The timer sends data again: it stops neither at the SYN nor at the FIN. -/
def timesOut (s : Tcb) : Bool :=
  !(s.synNeedsOn && !(s.snd.synRetransmit < maxNrRetransmit)) &&
    !(s.finNeedsOn && !(s.snd.finRetransmit < maxNrRetransmit)) && s.snd.data ≠ []

/-- The window over the integers behind an event. -/
def exactAfter (s : Tcb) (c : Int) : TcbEvent → Int
  | .segment th p =>
    if s.state = .synSent then
      if s.answersSyn th p then initialWindow (s.parsedOption th p).remoteMss.toNat else c
    else
      match s.acknowledgment th p with
      | none => c
      | some r =>
        if s.snd.unacknowledged.lt th.ack && th.ack.le s.snd.next then s.snd.exactAck th.ack c
        else if s.isDuplicateAck th r then s.snd.exactDuplicate th.ack c
        else c
  | .retransmit => if s.timesOut then s.snd.mss.toNat else c
  | _ => c

end Tcb

/-- A connection with its congestion window over the integers. -/
structure CwndSession where
  session : Session
  exact : Int

/-- One step of both. When the program stops, the connection stays as it was. -/
def CwndSession.step (tso : Bool) (s : CwndSession) (e : TcbEvent) : Option CwndSession :=
  (s.session.step tso e).map fun t =>
    ⟨t, if t.fault = none then s.session.tcb.exactAfter s.exact e else s.exact⟩

end Netstar.Spec.Net
