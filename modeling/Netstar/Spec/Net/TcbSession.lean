import Netstar.Lib.Run
import Netstar.Spec.Net.TcbInput

/-!
# `Netstar.Spec.Net.TcbSession`: runs of one connection

A connection changes when a segment arrives, when the user calls it, when one of its timers fires,
and when the device polls it. Each of these is a `TcbEvent`, and `step` runs the code of one event to
its end, as the reactor does. A timer fires only while it is armed, and firing disarms it. A segment
reaches the connection only while the connection is in `_tcbs`.

`Session` adds what the world outside has seen: the bytes that `send` accepted, the bytes that `read`
returned, and the segments that `get_packet` handed to the device. `fault` is set when the program
stopped, and no event follows then.
-/

set_option autoImplicit false

namespace Netstar.Spec.Net

/-- What can happen to a connection. `closeContinuation` is the continuation of `close` whose future
became ready, and the two `arp` events are the answers of ARP to `poll_tcb`. -/
inductive TcbEvent where
  | segment (th : TcbHdr) (p : Packet)
  | send (p : Packet)
  | read
  | waitForData
  | closeRead
  | close
  | closeContinuation
  | shutdownConnect
  | getPacket
  | arpQueueFull
  | arpTimeout
  | retransmit
  | persist
  | delayedAck
  deriving DecidableEq, Repr

namespace Tcb

/-- `make_lw_shared<tcb>`. The fields that the source leaves uninitialized come from `g`. -/
def create (g : Tcb) : Tcb where
  snd :=
    { unacknowledged := g.snd.unacknowledged
      next := g.snd.next
      windowScale := g.snd.windowScale
      mss := g.snd.mss
      wl1 := g.snd.wl1
      wl2 := g.snd.wl2
      initial := g.snd.initial
      cwnd := g.snd.cwnd
      ssthresh := g.snd.ssthresh
      recover := g.snd.recover }
  rcv :=
    { next := g.rcv.next
      window := g.rcv.window
      windowScale := g.rcv.windowScale
      mss := g.rcv.mss
      initial := g.rcv.initial }

/-- The last step of `tcp::received`. -/
def inputHandle (tso : Bool) (th : TcbHdr) (p : Packet) (s : Tcb) : Except TcbFault Tcb :=
  if s.state = .synSent then s.inputHandleSynSentState th p else s.inputHandleOtherState tso th p

/-- `send` returns an exception and takes nothing. -/
def refusesSend (s : Tcb) : Bool := s.snd.closed || s.inState [.closed]

/-- One event of the connection, and the segment that it hands to the device. -/
def handle (tso : Bool) (s : Tcb) : TcbEvent → Except TcbFault (Option OutSegment × Tcb)
  | .segment th p => (s.inputHandle tso th p).map (none, ·)
  | .send p => .ok (none, s.send p)
  | .read => .ok (none, s.read.2)
  | .waitForData => .ok (none, s.waitForData)
  | .closeRead => .ok (none, s.abortReader)
  | .close => .ok (none, s.close)
  | .closeContinuation =>
    let snd := { s.snd with closeReady := s.snd.closeReady - 1 }
    ({ s with snd := snd }.closeContinuation tso).map (none, ·)
  | .shutdownConnect => .ok (none, s.shutdownConnect)
  | .getPacket => s.getPacket tso
  | .arpQueueFull => .ok (none, s.arpQueueFull)
  | .arpTimeout => .ok (none, s.arpTimeout)
  | .retransmit => ({ s with retransmitArmed := false }.retransmit tso).map (none, ·)
  | .persist => ({ s with persistArmed := false }.persist tso).map (none, ·)
  | .delayedAck => .ok (none, { s with delayedAckArmed := false }.delayedAck)

/-- The event can happen. The length of a packet is an `unsigned`. -/
def enabled (s : Tcb) : TcbEvent → Bool
  | .segment _ _ => !s.removed
  | .send p => p.length < 2 ^ 32
  | .closeContinuation => 0 < s.snd.closeReady
  | .getPacket | .arpQueueFull | .arpTimeout => s.pollRequested
  | .retransmit => s.retransmitArmed
  | .persist => s.persistArmed
  | .delayedAck => s.delayedAckArmed
  | .read | .waitForData | .closeRead | .close | .shutdownConnect => true

end Tcb

/-- A connection and what the world outside has seen of it. -/
structure Session where
  tcb : Tcb
  sent : List UInt8 := []
  received : List UInt8 := []
  emitted : List OutSegment := []
  fault : Option TcbFault := none
  deriving DecidableEq, Repr

namespace Session

/-- What `send` accepts in the event. -/
def accepts (s : Session) : TcbEvent → List UInt8
  | .send p => if s.tcb.refusesSend then [] else p
  | _ => []

/-- What `read` returns in the event. -/
def returns (s : Session) : TcbEvent → List UInt8
  | .read => s.tcb.read.1
  | _ => []

/-- One step of a run. -/
def step (tso : Bool) (s : Session) (e : TcbEvent) : Option Session :=
  if s.fault = none ∧ s.tcb.enabled e then
    match s.tcb.handle tso e with
    | .error f => some { s with fault := some f }
    | .ok (seg, t) =>
      some { s with
        tcb := t
        sent := s.sent ++ s.accepts e
        received := s.received ++ s.returns e
        emitted := s.emitted ++ seg.toList }
  else none

/-- The session of a connection that a SYN with the given header opened on a listener. -/
def PassiveOpen (th : TcbHdr) (s : Session) : Prop :=
  ∃ g p isn t, (Tcb.create g).inputHandleListenState th p isn = .ok t ∧ s = { tcb := t }

/-- The session of a connection that `connect` opened. -/
def ActiveOpen (s : Session) : Prop := ∃ g isn, s = { tcb := (Tcb.create g).connect isn }

end Session

end Netstar.Spec.Net
