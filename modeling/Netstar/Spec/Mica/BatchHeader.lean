import Netstar.Spec.Mica.MicaClient
import Netstar.Spec.Net.Forward

/-!
# `Netstar.Spec.Mica.BatchHeader`: the header of a MICA packet

The 48-byte `RequestBatchHeader` is an Ethernet, an IPv4 and a UDP header and 6 bytes of MICA. A
request assembler builds it once. Each packet starts with this one fragment, so what
`setup_ip_udp_length` and `setup_request_num` write into a packet stays in the header of the
assembler. The packet is linearized before it goes out, which copies it.

A packet is its bytes. `get_header` finds the same bytes in every layout of fragments, and a number
in a packed header is loaded in the order of the little-endian host.
-/

set_option autoImplicit false

namespace Netstar.Spec.Mica

open Netstar.Lib.LittleEndian (encode)
open Netstar.Spec.Net (hton loadPacked)

/-- The fields of `endpoint_info` that the header uses. -/
structure EndpointInfo where
  ethAddr : Vector UInt8 6
  ipAddr : BitVec 32
  udpPort : BitVec 16
  deriving DecidableEq, Repr

namespace BatchHeader

/-- `sizeof(eth_hdr)`, `sizeof(ip_hdr)` and `sizeof(udp_hdr)`. -/
def ethHdrSize : Nat := 14

/-- `sizeof(net::ip_hdr)`. -/
def ipHdrSize : Nat := 20

/-- `sizeof(net::udp_hdr)`. -/
def udpHdrSize : Nat := 8

/-- A number of `n` bytes in a packed header, after `hton` of the header. -/
def packed (n v : Nat) : List UInt8 := encode n (hton n v)

/-- The UDP header that `build_requet_batch_header` prepends. -/
def udpHdr (srcPort dstPort : BitVec 16) : List UInt8 :=
  packed 2 srcPort.toNat ++ packed 2 dstPort.toNat ++ packed 2 0 ++ packed 2 0

/-- The IP header: `ihl` is in the low bits of its first byte. -/
def ipHdr (srcIp dstIp : BitVec 32) (len : Nat) : List UInt8 :=
  let ihl := ipHdrSize / 4
  [UInt8.ofNat (ihl + 4 * 16), 0] ++ packed 2 len ++ packed 2 0 ++ packed 2 0 ++ [64, 17] ++
    packed 2 0 ++ packed 4 srcIp.toNat ++ packed 4 dstIp.toNat

/-- The Ethernet header. -/
def ethHdr (dst src : Vector UInt8 6) : List UInt8 := dst.toList ++ src.toList ++ packed 2 0x0800

/-- `build_requet_batch_header`. -/
def buildRequetBatchHeader (remoteEi localEi : EndpointInfo) : List UInt8 :=
  let pkt := encode 4 0
  let pkt := encode 1 0 ++ pkt
  let pkt := [0x78] ++ pkt
  let pkt := udpHdr localEi.udpPort remoteEi.udpPort ++ pkt
  let pkt := ipHdr localEi.ipAddr remoteEi.ipAddr (ipHdrSize + pkt.length) ++ pkt
  ethHdr remoteEi.ethAddr localEi.ethAddr ++ pkt

/-- A store of bytes at an offset of a packet. -/
def store (p : List UInt8) (i : Nat) (bytes : List UInt8) : List UInt8 :=
  p.take i ++ bytes ++ p.drop (i + bytes.length)

/-- `setup_ip_udp_length`. -/
def setupIpUdpLength (p : List UInt8) : List UInt8 :=
  let udpLength := (p.length - ethHdrSize - ipHdrSize) % 2 ^ 16
  let ipLength := (p.length - ethHdrSize) % 2 ^ 16
  let p := store p (ethHdrSize + 2) (packed 2 ipLength)
  store p (ethHdrSize + ipHdrSize + 4) (packed 2 udpLength)

/-- `setup_request_num`, for this number of requests. -/
def setupRequestNum (p : List UInt8) (requests : Nat) : List UInt8 :=
  store p (ethHdrSize + ipHdrSize + udpHdrSize + 1) [UInt8.ofNat requests]

/-- The packet that `send_request_packet` sends, for the header of the assembler. -/
def requestPacket (header : List UInt8) (requests : List SentRequest) : List UInt8 :=
  setupRequestNum (setupIpUdpLength (header ++ (requests.map (·.frags)).flatten)) requests.length

/-- The header of the assembler after it sent these packets. -/
def headerAfter (remoteEi localEi : EndpointInfo) (packets : List (List SentRequest)) : List UInt8 :=
  packets.foldl (fun header requests => (requestPacket header requests).take requestBatchHeaderSize)
    (buildRequetBatchHeader remoteEi localEi)

/-- `ip_hdr->ihl` and `ip_hdr->ver`. -/
def ihl (p : List UInt8) : Nat := (p.getD ethHdrSize 0).toNat % 16

/-- The version field of the IP header. -/
def ver (p : List UInt8) : Nat := (p.getD ethHdrSize 0).toNat / 16

/-- `rbh->magic`. -/
def magic (p : List UInt8) : UInt8 := p.getD (ethHdrSize + ipHdrSize + udpHdrSize) 0

/-- `rbh->num_requests`. -/
def numRequests (p : List UInt8) : UInt8 := p.getD (ethHdrSize + ipHdrSize + udpHdrSize + 1) 0

/-- `ip_hdr->len` and `udp_hdr->len`, after `ntoh`. -/
def ipLen (p : List UInt8) : Nat := hton 2 (loadPacked 2 p (ethHdrSize + 2))

/-- The length field of the UDP header. -/
def udpLen (p : List UInt8) : Nat := hton 2 (loadPacked 2 p (ethHdrSize + ipHdrSize + 4))

end BatchHeader

namespace MicaClient

open BatchHeader

/-- `is_valid`. -/
def isValid (p : List UInt8) : Bool :=
  if p.length < requestBatchHeaderSize then false
  else if hton 2 (loadPacked 2 p 12) ≠ 0x0800 then false
  else if ihl p ≠ 5 ∧ ver p ≠ 4 then false
  else if loadPacked 2 p (ethHdrSize + 4) ≠ 0 ∨ loadPacked 2 p (ethHdrSize + 6) ≠ 0 then false
  else if ipLen p ≠ p.length - ethHdrSize then false
  else if p.getD (ethHdrSize + 9) 0 ≠ 17 then false
  else if udpLen p ≠ p.length - ethHdrSize - ipHdrSize then false
  else if loadPacked 2 p (ethHdrSize + ipHdrSize + 6) ≠ 0 ∨ loadPacked 2 p (ethHdrSize + 10) ≠ 0 then
    false
  else if magic p ≠ 0x78 ∧ magic p ≠ 0x79 then false
  else true

/-- `is_response`. -/
def isResponse (p : List UInt8) : Bool := magic p = 0x79

end MicaClient

end Netstar.Spec.Mica
