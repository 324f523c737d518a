import Netstar.Lib.LittleEndian

/-!
# `Netstar.Spec.Net.DhcpOptions`: `ip_info::parse_options`

`parse_options` of `net/dhcp.cc` walks over the options of a DHCP packet and stores the values that it
knows in an `ip_info`. The packet is the list of its bytes. `get_header` is null when the header does
not fit in the packet, and otherwise has the bytes of the header.

The result also lists the values that were read, each with its size and with the length byte of its
option.
-/

set_option autoImplicit false

namespace Netstar.Spec.Net.Dhcp

open Netstar.Lib.LittleEndian (decode)

/-- `packet::get_header(off, size)`. -/
def getHeader (p : List UInt8) (off size : Nat) : Option (List UInt8) :=
  if p.length < off + size then none else some ((p.drop off).take size)

/-- A number in network order. -/
def ntoh (bytes : List UInt8) : Nat := decode bytes.reverse

/-- `opt_type`. Every byte can come from the network. -/
abbrev OptType := UInt8

namespace OptType

/-- PAD, which has no length. -/
def pad : OptType := 0
/-- The subnet mask. -/
def subnetMask : OptType := 1
/-- The routers. -/
def router : OptType := 3
/-- The name servers. -/
def domainNameServers : OptType := 6
/-- The MTU of the interface. -/
def interfaceMtu : OptType := 26
/-- The broadcast address. -/
def broadcastAddress : OptType := 28
/-- The lease time. -/
def leaseTime : OptType := 51
/-- The type of the message. -/
def messageType : OptType := 53
/-- The DHCP server. -/
def dhcpServer : OptType := 54
/-- The renewal time. -/
def renewalTime : OptType := 58
/-- The rebinding time. -/
def rebindingTime : OptType := 59
/-- END, which ends the options. -/
def endMark : OptType := 255

end OptType

/-- `ip_info` with the fields of `lease`. An address is the number of `ipv4_address`. -/
structure IpInfo where
  ip : Nat
  netmask : Nat
  broadcast : Nat
  gateway : Nat
  dhcpServer : Nat
  nameServers : List Nat
  leaseTime : Nat
  renewTime : Nat
  rebindTime : Nat
  mtu : Nat
  type : Nat
  deriving DecidableEq, Repr

namespace IpInfo

/-- `set(type, ip)`. -/
def setIp (info : IpInfo) (type : OptType) (ip : Nat) : IpInfo :=
  if type = OptType.subnetMask then { info with netmask := ip }
  else if type = OptType.router then { info with gateway := ip }
  else if type = OptType.broadcastAddress then { info with broadcast := ip }
  else if type = OptType.dhcpServer then { info with dhcpServer := ip }
  else if type = OptType.domainNameServers then
    { info with nameServers := info.nameServers ++ [ip] }
  else info

/-- `set(type, s)`. -/
def setTime (info : IpInfo) (type : OptType) (s : Nat) : IpInfo :=
  if type = OptType.leaseTime then { info with leaseTime := s }
  else if type = OptType.renewalTime then { info with renewTime := s }
  else if type = OptType.rebindingTime then { info with rebindTime := s }
  else info

end IpInfo

/-- The cases of the `switch`: the header that an option is read with. -/
inductive OptKind where
  | ipOption
  | typeOption
  | mtuOption
  | timeOption
  | unknown
  deriving DecidableEq, Repr

/-- What the parser does with an option. -/
def optKind (type : OptType) : OptKind :=
  if type = OptType.subnetMask ∨ type = OptType.router ∨ type = OptType.broadcastAddress ∨
      type = OptType.dhcpServer ∨ type = OptType.domainNameServers then .ipOption
  else if type = OptType.messageType then .typeOption
  else if type = OptType.interfaceMtu then .mtuOption
  else if type = OptType.leaseTime ∨ type = OptType.renewalTime ∨ type = OptType.rebindingTime then
    .timeOption
  else .unknown

/-- The bytes behind type and length in the header that the option is read with. -/
def valueSize (type : OptType) : Option Nat :=
  match optKind type with
  | .ipOption => some 4
  | .typeOption => some 1
  | .mtuOption => some 2
  | .timeOption => some 4
  | .unknown => none

/-- What the case of the `switch` stores, from the bytes of the value. -/
def IpInfo.store (info : IpInfo) (type : OptType) (value : List UInt8) : IpInfo :=
  match optKind type with
  | .ipOption => info.setIp type (ntoh value)
  | .typeOption => { info with type := ntoh value }
  | .mtuOption => { info with mtu := ntoh value }
  | .timeOption => info.setTime type (ntoh value)
  | .unknown => info

/-- A value of `size` bytes was read from an option with the length byte `len`. -/
structure ValueRead where
  size : Nat
  len : Nat
  deriving DecidableEq, Repr

/-- The `switch` on an option at `off`. -/
def parseOption (p : List UInt8) (off : Nat) (type : OptType) (len : Nat) (info : IpInfo) :
    IpInfo × List ValueRead :=
  match valueSize type with
  | none => (info, [])
  | some size =>
    match getHeader p off (2 + size) with
    | none => (info, [])
    | some header => (info.store type (header.drop 2), [⟨size, len⟩])

/-- The loop of `parse_options`. The result is `none` when it has not ended after `fuel` options. -/
def parseLoop (p : List UInt8) : Nat → Nat → IpInfo → Option (IpInfo × List ValueRead)
  | 0, _, _ => none
  | fuel + 1, off, info =>
    match getHeader p off 1 with
    | none => some (info, [])
    | some mark =>
      if mark.head? = some OptType.endMark then some (info, [])
      else
        match getHeader p off 2 with
        | some [type, len] =>
          let (info, reads) := parseOption p off type len.toNat info
          (parseLoop p fuel (off + (2 + len.toNat)) info).map fun (info, rest) =>
            (info, reads ++ rest)
        | _ => some (info, [])

/-- `parse_options`. An option has two bytes at least, so the fuel is enough. -/
def parseOptions (p : List UInt8) (off : Nat) (info : IpInfo) : Option (IpInfo × List ValueRead) :=
  parseLoop p (p.length + 1) off info

/-! ### The options of RFC 2132 -/

/-- An option that is not a single byte. -/
structure OptionField where
  type : OptType
  value : List UInt8
  notPad : type ≠ OptType.pad
  notEnd : type ≠ OptType.endMark
  short : value.length < 256
  deriving DecidableEq, Repr

/-- What may stand in an option area before the END. -/
inductive OptItem where
  | pad
  | field (o : OptionField)
  deriving DecidableEq, Repr

/-- The bytes of the options. -/
def encodeItems : List OptItem → List UInt8
  | [] => []
  | .pad :: items => OptType.pad :: encodeItems items
  | .field o :: items => o.type :: UInt8.ofNat o.value.length :: (o.value ++ encodeItems items)

/-- The options without the PADs. -/
def withoutPads : List OptItem → List OptItem
  | [] => []
  | .pad :: items => withoutPads items
  | .field o :: items => .field o :: withoutPads items

/-- A packet with an option area, and with more bytes behind the END. -/
def optionPacket (pre : List UInt8) (items : List OptItem) (post : List UInt8) : List UInt8 :=
  pre ++ (encodeItems items ++ OptType.endMark :: post)

end Netstar.Spec.Net.Dhcp
