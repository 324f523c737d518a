import Netstar.Spec.Net.Cwnd

/-!
# `Netstar.Spec.Net.TcpReceived`: `tcp::received` and the rounds of the option parser

`tcp::received` gets every TCP packet of the host. It checks the length of the fixed header and the
lower bound of the data offset, looks for the connection or the listener of the packet, and passes the
packet to one of the three handlers of `Netstar.Spec.Net.TcbInput`. The device verified the checksum.

`route` is the choice of the handler. The RST replies are left out here too.

`parseLoop` of `Netstar.Spec.Net.Tcb` gives the result of `tcp_option::parse`. For the memory that it
reads, this file splits the loop into its rounds: `parseRound` is one round, `roundReads` the positions
that it reads, and `ParseEnds` says that the loop ends.
-/

set_option autoImplicit false

namespace Netstar.Spec.Net

namespace TcpOption

/-- One round of the loop of `parse`: the next position, or `none` when the loop ends. -/
def parseRound (bytes : List UInt8) (stop beg : Nat) (o : TcpOption) : Option (Nat × TcpOption) :=
  let kind := bytes.getD beg 0
  let len := (bytes.getD (beg + 1) 0).toNat
  if stop ≤ beg then none
  else if kind ≠ 1 ∧ kind ≠ 0 ∧ stop < beg + len then none
  else if kind = 2 then
    some (beg + 4, { o with mssReceived := true, remoteMss := readBe16 bytes (beg + 2) })
  else if kind = 3 then
    some (beg + 3, { o with
      winScaleReceived := true
      remoteWinScale := (bytes.getD (beg + 2) 0).toBitVec
      localWinScale := 7 })
  else if kind = 4 then some (beg + 2, { o with sackReceived := true })
  else if kind = 1 then some (beg + 1, o)
  else if kind = 0 then none
  else if len = 0 then none
  else some (beg + len, o)

/-- The positions that a round reads: the kind, the length of an option that has one, and the value. -/
def roundReads (bytes : List UInt8) (stop beg : Nat) : List Nat :=
  let kind := bytes.getD beg 0
  let len := (bytes.getD (beg + 1) 0).toNat
  if stop ≤ beg then []
  else if kind = 1 ∨ kind = 0 then [beg]
  else if stop < beg + len then [beg, beg + 1]
  else if kind = 2 then [beg, beg + 1, beg + 2, beg + 3]
  else if kind = 3 then [beg, beg + 1, beg + 2]
  else [beg, beg + 1]

/-- The positions that the loop reads. -/
def readsLoop (bytes : List UInt8) (stop : Nat) : Nat → Nat → TcpOption → List Nat
  | 0, _, _ => []
  | rounds + 1, beg, o =>
    roundReads bytes stop beg ++
      match parseRound bytes stop beg o with
      | none => []
      | some (next, o) => readsLoop bytes stop rounds next o

/-- The positions that `parse` reads. -/
def parseReads (o : TcpOption) (bytes : List UInt8) (stop : Nat) : List Nat :=
  readsLoop bytes stop stop 0 o

/-- The loop ends, with the given options. -/
inductive ParseEnds (bytes : List UInt8) (stop : Nat) : Nat → TcpOption → TcpOption → Prop where
  | done {beg : Nat} {o : TcpOption} : parseRound bytes stop beg o = none →
      ParseEnds bytes stop beg o o
  | round {beg next : Nat} {o u r : TcpOption} : parseRound bytes stop beg o = some (next, u) →
      ParseEnds bytes stop next u r → ParseEnds bytes stop beg o r

end TcpOption

/-- The connection is in a state that its events reach from one of the two ways to open it. -/
def Tcb.Reachable (tso : Bool) (t : Tcb) : Prop :=
  ∃ (s : Session) (es : List TcbEvent) (u : Session),
    ((∃ th, Session.PassiveOpen th s) ∨ Session.ActiveOpen s) ∧
      Lib.run (Session.step tso) s es = some u ∧ u.fault = none ∧ u.tcb = t

/-- `l4connid`. -/
structure ConnId where
  localIp : BitVec 32
  foreignIp : BitVec 32
  localPort : BitVec 16
  foreignPort : BitVec 16
  deriving DecidableEq, Repr

/-- `tcp::listener`: the room of its queue, the connections in it, and `_pending`. -/
structure TcpListener where
  maxSize : Nat
  queued : Nat := 0
  pending : Nat := 0
  deriving DecidableEq, Repr

/-- `full`. -/
def TcpListener.full (l : TcpListener) : Bool := l.maxSize ≤ l.pending + l.queued

/-- The connections and the listeners of `tcp`: `_tcbs` and `_listening`. -/
structure TcpLayer where
  tcbs : List (ConnId × Tcb) := []
  listening : List (BitVec 16 × TcpListener) := []

/-- What `tcp::received` does with a packet. -/
inductive TcpRoute where
  /-- It returns. -/
  | dropped
  /-- `respond_with_reset`. -/
  | reset
  /-- A new connection of a listener, and `input_handle_listen_state`. -/
  | listen (id : ConnId) (l : TcpListener)
  /-- `input_handle_syn_sent_state` or `input_handle_other_state` of a connection. -/
  | connection (id : ConnId) (t : Tcb)

namespace TcpLayer

/-- The connection of a packet. -/
def connId (p : Packet) (src dst : BitVec 32) : ConnId where
  localIp := dst
  foreignIp := src
  localPort := TcpOption.readBe16 p 2
  foreignPort := TcpOption.readBe16 p 0

/-- `received` up to the handlers. -/
def route (p : Packet) (src dst : BitVec 32) (s : TcpLayer) : TcpRoute :=
  -- The first test is the null pointer that `get_header` returns.
  if p.length < TcpHdr.len then .dropped
  else if (TcbHdr.read p).dataOffset * 4 < TcpHdr.len then .dropped
  else
    let h := TcbHdr.read p
    let id := connId p src dst
    match s.tcbs.lookup id with
    | none =>
      match s.listening.lookup id.localPort with
      | none => .reset
      | some l =>
        if l.full then .reset
        else if h.fRst then .dropped
        else if h.fAck then .reset
        else if h.fSyn then .listen id l
        else .dropped
    | some t => .connection id t

/-- A listener in its place. -/
def setListener (port : BitVec 16) (l : TcpListener) (s : TcpLayer) : TcpLayer :=
  { s with listening := s.listening.map fun e => if e.1 = port then (port, l) else e }

/-- A connection in its place, unless `remove_from_tcbs` ran. -/
def setTcb (id : ConnId) (t : Tcb) (s : TcpLayer) : TcpLayer :=
  let rest := s.tcbs.filter fun e => e.1 ≠ id
  { s with tcbs := if t.removed then rest else (id, t) :: rest }

/-- `add_connected_tcb`. -/
def addConnectedTcb (port : BitVec 16) (s : TcpLayer) : TcpLayer :=
  match s.listening.lookup port with
  | none => s
  | some l => s.setListener port { l with queued := l.queued + 1, pending := l.pending - 1 }

/-- `received`. A new `tcb` takes what the source leaves uninitialized from `g`, and `isn` is the number
that `get_isn` returns. -/
def received (tso : Bool) (g : Tcb) (isn : TcpSeq) (p : Packet) (src dst : BitVec 32) (s : TcpLayer) :
    Except TcbFault TcpLayer :=
  match s.route p src dst with
  | .dropped | .reset => .ok s
  | .listen id l => do
    let s := s.setListener id.localPort { l with pending := l.pending + 1 }
    let t ← (Tcb.create g).inputHandleListenState (TcbHdr.read p) p isn
    return s.setTcb id t
  | .connection id t => do
    let u ← t.inputHandle tso (TcbHdr.read p) p
    let s := if u.connected && !t.connected then s.addConnectedTcb id.localPort else s
    return s.setTcb id u

/-- The options on which `received` calls `parse`, when it does. -/
def parses (p : Packet) (src dst : BitVec 32) (s : TcpLayer) : Option TcpOption :=
  match s.route p src dst with
  | .dropped | .reset => none
  | .listen _ _ => some {}
  | .connection _ t =>
    if t.state = .synSent ∧ t.answersSyn (TcbHdr.read p) p then some t.option else none

/-- The bytes from the option area on. -/
def optionArea (p : Packet) : List UInt8 := p.drop TcpHdr.len

/-- `opt_len`. -/
def optionLen (p : Packet) : Nat := (TcbHdr.read p).dataOffset * 4 - TcpHdr.len

end TcpLayer

end Netstar.Spec.Net
