import Mathlib.Data.UInt

/-!
# `Netstar.Spec.Net.UdpChannels`: the ports of the UDP channels

`ipv4_udp` of `net/ip.hh` keeps its channels under their ports, and a cursor for the channels that are
made without a port. `make_channel` of `net/udp.cc` looks for a free port from the cursor on.
`close` takes the channel out of the table again. A program makes channels and closes them, and
`Session` keeps what it has made.
-/

set_option autoImplicit false

namespace Netstar.Spec.Net

/-- The address that `make_channel` binds to. -/
structure BindAddr where
  ip : UInt32
  port : UInt16
  deriving DecidableEq, Repr

/-- Why a channel cannot be made. -/
inductive MakeError where
  /-- "Binding to specific IP not supported yet" -/
  | specificIp
  /-- "Address already in use" -/
  | inUse
  /-- "No free port" -/
  | noFreePort
  deriving DecidableEq, Repr

/-- `min_anonymous_port`. -/
def minAnonymousPort : UInt16 := 32768

/-- The ports in `_channels` and the cursor `_next_anonymous_port`. -/
structure Ipv4Udp where
  channels : List UInt16
  nextAnonymousPort : UInt16
  deriving DecidableEq, Repr

namespace Ipv4Udp

/-- The layer before any call. -/
def create : Ipv4Udp := ⟨[], minAnonymousPort⟩

/-- `port + 1` is an `int`, so it is never zero. The result is cut to 16 bits. -/
def nextPort (port : UInt16) : UInt16 :=
  if port.toNat + 1 = 0 then minAnonymousPort else UInt16.ofNat (port.toNat + 1)

/-- The loop of `make_channel`. It returns with the cursor where the loop has left it, or `none` when
it has not ended after `fuel` rounds. -/
def searchLoop (channels : List UInt16) (startingPort : UInt16) :
    Nat → UInt16 → Option (Except MakeError Unit × UInt16)
  | fuel, cursor =>
    if channels.contains cursor then
      match fuel with
      | 0 => none
      | fuel + 1 =>
        if startingPort = nextPort cursor then some (.error .noFreePort, nextPort cursor)
        else searchLoop channels startingPort fuel (nextPort cursor)
    else some (.ok (), cursor)

/-- There are 65536 ports. `searchLoop_spec` says that more rounds are never needed. -/
def searchFuel : Nat := 65536

/-- `_channels[bind_port] = chan_state` -/
def bind (s : Ipv4Udp) (port : UInt16) : Ipv4Udp := { s with channels := port :: s.channels }

/-- `make_channel`: the port or the error, and the state after the call. `none` is a search that does
not end. -/
def makeChannel (s : Ipv4Udp) (addr : BindAddr) : Option (Except MakeError UInt16 × Ipv4Udp) :=
  if addr.ip ≠ 0 then some (.error .specificIp, s)
  else if addr.port ≠ 0 then
    if s.channels.contains addr.port then some (.error .inUse, s)
    else some (.ok addr.port, s.bind addr.port)
  else
    match searchLoop s.channels s.nextAnonymousPort searchFuel s.nextAnonymousPort with
    | none => none
    | some (.error e, cursor) => some (.error e, { s with nextAnonymousPort := cursor })
    | some (.ok (), cursor) =>
      some (.ok cursor, { s with nextAnonymousPort := nextPort cursor }.bind cursor)

/-- `unregister`. To erase a port that is not in the table has no meaning. -/
def unregister (s : Ipv4Udp) (port : UInt16) : Option Ipv4Udp :=
  if s.channels.contains port then
    some { s with channels := s.channels.filter fun p => p ≠ port }
  else none

end Ipv4Udp

/-- `native_channel`: the port of its registration and `_closed`. -/
structure NativeChannel where
  port : UInt16
  closed : Bool
  deriving DecidableEq, Repr

/-- The channels that the program has made, in order. -/
structure UdpSession where
  udp : Ipv4Udp
  made : List NativeChannel
  deriving DecidableEq, Repr

/-- `close` is also what the destructor does with a channel that is not closed. -/
inductive UdpCall where
  | makeChannel (addr : BindAddr)
  | close (i : Nat)
  deriving DecidableEq, Repr

namespace UdpSession

/-- A session before any call. -/
def create : UdpSession := ⟨.create, []⟩

/-- One call of a session. -/
def step (s : UdpSession) : UdpCall → Option UdpSession
  | .makeChannel addr =>
    match s.udp.makeChannel addr with
    | none => none
    | some (.error _, udp) => some { s with udp }
    | some (.ok port, udp) => some ⟨udp, s.made ++ [⟨port, false⟩]⟩
  | .close i =>
    match s.made[i]? with
    | none => none
    | some c =>
      (s.udp.unregister c.port).map fun udp => ⟨udp, s.made.set i { c with closed := true }⟩

/-- The ports of the channels that are not closed. -/
def openPorts (s : UdpSession) : List UInt16 :=
  (s.made.filter fun c => !c.closed).map NativeChannel.port

end UdpSession

end Netstar.Spec.Net
