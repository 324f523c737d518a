import Netstar.Spec.Net.Tcp

/-!
# `Netstar.Spec.Net.Tcb`: the state of a connection in `net/tcp.hh`

A `tcb` has a send side `_snd`, a receive side `_rcv`, three timers and a queue of segments that
wait for the device. This file holds the state and the functions that the segment handlers and the
timers share. `Netstar.Spec.Net.TcbInput` has the handlers of received segments.

The model reads the machine integers of the source as `BitVec`, and `current_queue_space`, a
`size_t`, as a natural number. A packet is its content. A timer is the flag that says whether it is
armed: the model leaves the clock out, and with it the values of the retransmission timeout. A promise
that the user can wait for is the flag that says whether it is pending. `_connect_done` counts how
often it was resolved, because the source resolves it in several places.

Of a segment in `_packetq` the model keeps the payload and the fields that carry sequence numbers,
flags and the window. The ports, the options and the checksum are left out. So are the RST replies of
`respond_with_reset`, which go through a queue of `tcp` and do not touch the connection.

`output` asks `poll_tcb` for a later call of `get_packet`. The answer of ARP comes first, so a
request is open (`pollRequested`) until `get_packet` runs or ARP fails.
-/

set_option autoImplicit false

namespace Netstar.Spec.Net

/-- `tcp_state`. -/
inductive TcpState where
  | closed
  | listen
  | synSent
  | synReceived
  | established
  | finWait1
  | finWait2
  | closeWait
  | closing
  | lastAck
  | timeWait
  deriving DecidableEq, Repr

/-- The ways in which the functions of a connection stop the program. -/
inductive TcbFault where
  /-- `assert((_snd.window > 0) || ((_snd.window == 0) && (len == 1)))` of `output_one`. -/
  | windowAssert
  /-- `assert(!_packetq.empty())` of `get_packet`. -/
  | packetqAssert
  /-- `smss * smss / _snd.cwnd` of `update_cwnd` with `_snd.cwnd == 0`. -/
  | divideByZero
  /-- `_snd.data.front()` on an empty queue. -/
  | emptyFront
  /-- `get_header` returned a null pointer, and the source goes on with it. -/
  | nullHeader
  /-- `packet::trim_front` or `packet_merger::merge` stopped. -/
  | merger (e : MergeError)
  deriving DecidableEq, Repr

/-- `std::min` on unsigned numbers. -/
def umin {w : Nat} (a b : BitVec w) : BitVec w := if b < a then b else a

/-- `std::max` on unsigned numbers. -/
def umax {w : Nat} (a b : BitVec w) : BitVec w := if a < b then b else a

/-- The number of bytes of a packet, as an `unsigned`. -/
def packetLen (p : Packet) : BitVec 32 := BitVec.ofNat 32 p.length

/-! ### Options and headers -/

/-- `tcp_option`: what the peer's SYN asked for. -/
structure TcpOption where
  mssReceived : Bool := false
  winScaleReceived : Bool := false
  sackReceived : Bool := false
  remoteMss : BitVec 16 := 536
  remoteWinScale : BitVec 8 := 0
  localWinScale : BitVec 8 := 0
  deriving DecidableEq, Repr

namespace TcpOption

/-- `read_be<uint16_t>(p + i)`. -/
def readBe16 (p : List UInt8) (i : Nat) : BitVec 16 :=
  BitVec.ofNat 16 ((p.getD i 0).toNat * 2 ^ 8 + (p.getD (i + 1) 0).toNat)

/-- The loop of `parse` at the position `beg` of the option area, which has `stop` bytes. The source
can read past the option area. The list `bytes` goes on with the payload there, and behind the packet
the model reads zeros. Every round moves `beg`, so `stop` rounds are enough. -/
def parseLoop (bytes : List UInt8) (stop : Nat) : Nat → Nat → TcpOption → TcpOption
  | 0, _, o => o
  | rounds + 1, beg, o =>
    let kind := bytes.getD beg 0
    let len := (bytes.getD (beg + 1) 0).toNat
    if stop ≤ beg then o
    else if kind ≠ 1 ∧ kind ≠ 0 ∧ stop < beg + len then o
    else if kind = 2 then
      -- MSS
      parseLoop bytes stop rounds (beg + 4)
        { o with mssReceived := true, remoteMss := readBe16 bytes (beg + 2) }
    else if kind = 3 then
      -- window scale
      parseLoop bytes stop rounds (beg + 3)
        { o with
          winScaleReceived := true
          remoteWinScale := (bytes.getD (beg + 2) 0).toBitVec
          localWinScale := 7 }
    else if kind = 4 then
      parseLoop bytes stop rounds (beg + 2) { o with sackReceived := true }
    else if kind = 1 then
      parseLoop bytes stop rounds (beg + 1) o
    else if kind = 0 then o
    -- An option of another kind is skipped by its length, and with length 0 the source stops.
    else if len = 0 then o
    else parseLoop bytes stop rounds (beg + len) o

/-- `parse`, on the `stop` bytes from the front of the list. -/
def parse (o : TcpOption) (bytes : List UInt8) (stop : Nat) : TcpOption :=
  parseLoop bytes stop stop 0 o

end TcpOption

/-- The fields of `tcp_hdr` that a connection uses. -/
structure TcbHdr extends TcpHdr where
  ack : TcpSeq
  fFin : Bool
  fAck : Bool
  window : BitVec 16
  deriving DecidableEq, Repr

/-- `tcp_hdr::read`. -/
def TcbHdr.read (p : List UInt8) : TcbHdr where
  toTcpHdr := TcpHdr.read p
  ack := ⟨readBe32 p 8⟩
  fFin := (p.getD 13 0).toNat % 2 = 1
  fAck := (p.getD 13 0).toNat / 16 % 2 = 1
  window := TcpOption.readBe16 p 14

/-- `window << window_scale`, where C++ widens the window to an `int`. A shift by 32 or more is
undefined there, and the processor takes the count modulo 32. -/
def scaleWindow (window : BitVec 16) (scale : BitVec 8) : BitVec 32 :=
  window.zeroExtend 32 <<< (scale.toNat % 32)

/-! ### The state -/

/-- `unacked_segment`. -/
structure UnackedSegment where
  p : Packet
  dataLen : BitVec 16
  nrTransmits : BitVec 32
  deriving DecidableEq, Repr

/-- `_snd`. The fields without an initializer in the source have arbitrary values in a new `tcb`.

`closeReady` counts the continuations of `close` that may run: the future of
`wait_for_all_data_acked` that they wait for is ready. -/
structure Send where
  unacknowledged : TcpSeq
  next : TcpSeq
  window : BitVec 32 := 3737600
  windowScale : BitVec 8
  mss : BitVec 16
  wl1 : TcpSeq
  wl2 : TcpSeq
  initial : TcpSeq
  data : List UnackedSegment := []
  unsent : List Packet := []
  unsentLen : BitVec 32 := 0
  closed : Bool := false
  allDataAckedPromise : Bool := false
  closeReady : Nat := 0
  currentQueueSpace : Nat := 0
  sendAvailablePromise : Bool := false
  cwnd : BitVec 32
  ssthresh : BitVec 32
  dupacks : BitVec 16 := 0
  synRetransmit : BitVec 32 := 0
  finRetransmit : BitVec 32 := 0
  limitedTransfer : BitVec 32 := 0
  partialAck : BitVec 32 := 0
  recover : TcpSeq
  windowProbe : Bool := false
  zeroWindowProbingOut : BitVec 8 := 0
  deriving DecidableEq, Repr

/-- `_rcv`. -/
structure Receive where
  next : TcpSeq
  window : BitVec 32
  windowScale : BitVec 8
  mss : BitVec 16
  initial : TcpSeq
  data : List Packet := []
  outOfOrder : SegMap TcpSeq := []
  dataReceivedPromise : Bool := false
  deriving DecidableEq, Repr

/-- A segment in `_packetq`. -/
structure OutSegment where
  seq : TcpSeq
  ack : TcpSeq
  fSyn : Bool
  fAck : Bool
  fFin : Bool
  window : BitVec 16
  payload : Packet
  deriving DecidableEq, Repr

/-- `tcb`. `removed` says that `remove_from_tcbs` ran, and `connected` that `add_connected_tcb` was
called for it. -/
structure Tcb where
  state : TcpState := .closed
  connectDone : Nat := 0
  snd : Send
  rcv : Receive
  option : TcpOption := {}
  delayedAckArmed : Bool := false
  retransmitArmed : Bool := false
  persistArmed : Bool := false
  nrFullSegReceived : BitVec 16 := 0
  packetq : List OutSegment := []
  pollActive : Bool := false
  pollRequested : Bool := false
  removed : Bool := false
  connected : Bool := false
  deriving DecidableEq, Repr

/-- `in_state`. -/
def Tcb.inState (s : Tcb) (states : List TcpState) : Bool := states.contains s.state

end Netstar.Spec.Net
