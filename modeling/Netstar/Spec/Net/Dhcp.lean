import Netstar.Spec.Net.DhcpOptions
import Netstar.Spec.Net.Ip

/-!
# `Netstar.Spec.Net.Dhcp`: one run of the DHCP client

`run` sends a DISCOVER, starts the timer of the whole run and the periodic one that sends again. The
packets of the network come to `handle`, on any CPU. The ones it accepts are processed on CPU 0, at
once or as messages from another CPU, which may arrive in any order. `run_dhcp` makes a client for each
run, so `run` is called once.

The value of the random device is a parameter of the calls that draw a transaction id. The client has
what it does with its timers, the messages that it sends, and the values that it sets in `_result`.
-/

set_option autoImplicit false

namespace Netstar.Spec.Net.Dhcp

/-- The states of the client. -/
inductive State where
  | none
  | discover
  | request
  | done
  | fail
  deriving DecidableEq, Repr

namespace MsgType

/-- The message type OFFER. -/
def offer : Nat := 2
/-- The message type ACK. -/
def ack : Nat := 5
/-- The message type NAK. -/
def nak : Nat := 6

end MsgType

/-- The messages to the server, with their transaction id. -/
inductive ClientMsg where
  | discover (xid requestedIp : Nat)
  | request (xid dhcpServer requestedIp : Nat)
  deriving DecidableEq, Repr

/-- `dhcp::impl`. A timer is armed or not. -/
structure Client where
  state : State
  xid : Nat
  timerArmed : Bool
  retryArmed : Bool
  sent : List ClientMsg
  /-- The values of `_result`, where `none` is the failure. -/
  result : List (Option IpInfo)
  deriving DecidableEq, Repr

/-- A packet that `handle` has accepted: its payload and the offset of its options. -/
structure Accepted where
  packet : List UInt8
  payload : List UInt8
  optOff : Nat
  deriving DecidableEq, Repr

namespace Accepted

/-- `bootp.xid`, which the client does not read. -/
def xid (m : Accepted) : Nat := ntoh ((m.payload.drop 4).take 4)

/-- `bootp.yiaddr`. -/
def yiaddr (m : Accepted) : Nat := ntoh ((m.payload.drop 16).take 4)

/-- The `info` of `process_packet`. Its times are not initialized there, and 0 here. -/
def info (m : Accepted) : Option IpInfo :=
  (parseOptions m.packet m.optOff ⟨m.yiaddr, 0, 0, 0, 0, [], 0, 0, 0, 0, 0⟩).map Prod.fst

end Accepted

namespace Client

/-- `send_discover(ip)`. -/
def sendDiscover (s : Client) (random ip : Nat) : Client :=
  { s with xid := random, state := .discover, sent := s.sent ++ [.discover random ip] }

/-- `send_request(info)`. -/
def sendRequest (s : Client) (info : IpInfo) : Client :=
  { s with state := .request, sent := s.sent ++ [.request s.xid info.dhcpServer info.ip] }

/-- `run(l, timeout)`, where only the address of the lease is used. -/
def run (ip random : Nat) (hasTimeout : Bool) : Client :=
  { (sendDiscover ⟨.none, 0, false, false, [], []⟩ random ip) with
    timerArmed := hasTimeout
    retryArmed := true }

/-- `process_packet`, after the options are parsed. -/
def process (s : Client) (info : IpInfo) (random : Nat) : Client :=
  let s := { s with retryArmed := false }
  match s.state with
  | .discover => if info.type ≠ MsgType.offer then s else s.sendRequest info
  | .request =>
    if info.type = MsgType.nak then { s with state := .none }.sendDiscover random 0
    else if info.type ≠ MsgType.ack then s
    else { s with state := .done, result := s.result ++ [some info] }
  | _ => s

/-- `sizeof(dhcp_header)`. -/
def headerSize : Nat := 236

/-- `sizeof(dhcp_payload)`: the header and the magic. -/
def payloadSize : Nat := headerSize + 4

/-- `sizeof(net::udp_hdr)`. -/
def udpHdrSize : Nat := 8

/-- The port of the client. -/
def clientPort : Nat := 68

/-- The magic before the options. -/
def optionsMagic : List UInt8 := [0x63, 0x82, 0x53, 0x63]

/-- The checks of `handle`. -/
def accepts (s : Client) (iph : IpHdr) (p : List UInt8) : Option Accepted :=
  if s.state = .none ∨ p.length < payloadSize then none
  else
    let ipl := iph.ihl * 4
    let optOff := ipl + udpHdrSize + payloadSize
    match getHeader p ipl udpHdrSize, getHeader p (ipl + udpHdrSize) payloadSize with
    | some udp, some payload =>
      if iph.ipProto ≠ 17 ∨ ntoh ((udp.drop 2).take 2) ≠ clientPort ∨ iph.len < optOff + 1 ∨
          payload.drop headerSize ≠ optionsMagic then none
      else some ⟨p, payload, optOff⟩
    | _, _ => none

end Client

/-- The client of a run with the packets that other CPUs have sent to CPU 0. -/
structure RunState where
  client : Client
  submitted : List Accepted
  deriving DecidableEq, Repr

/-- What happens to the client. -/
inductive RunEvent where
  | handle (cpu : Nat) (iph : IpHdr) (p : List UInt8) (random : Nat)
  /-- A message of another CPU arrives. -/
  | deliver (i random : Nat)
  | retry (random : Nat)
  | timeout
  deriving DecidableEq, Repr

namespace RunState

/-- `process_packet`. -/
def processPacket (s : RunState) (m : Accepted) (random : Nat) : Option RunState :=
  m.info.map fun info => { s with client := s.client.process info random }

/-- The packet that is processed when the event happens. -/
def processed (s : RunState) : RunEvent → Option Accepted
  | .handle cpu iph p _ => if cpu = 0 then s.client.accepts iph p else none
  | .deliver i _ => s.submitted[i]?
  | _ => none

/-- One event. `ip` is the address of the lease that `run` was given. A timer that is not armed does
not fire. -/
def step (ip : Nat) (s : RunState) : RunEvent → Option RunState
  | .handle cpu iph p random =>
    match s.client.accepts iph p with
    | none => some s
    | some m =>
      if cpu = 0 then s.processPacket m random
      else some { s with submitted := s.submitted ++ [m] }
  | .deliver i random =>
    match s.submitted[i]? with
    | none => none
    | some m => { s with submitted := s.submitted.eraseIdx i }.processPacket m random
  | .retry random =>
    if s.client.retryArmed then some { s with client := s.client.sendDiscover random ip } else none
  | .timeout =>
    if s.client.timerArmed then
      some { s with
        client := { s.client with
          state := .fail
          timerArmed := false
          retryArmed := false
          result := s.client.result ++ [none] } }
    else none

end RunState

end Netstar.Spec.Net.Dhcp
