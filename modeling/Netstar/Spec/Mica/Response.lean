import Netstar.Spec.Mica.RequestDescriptor

/-!
# `Netstar.Spec.Mica.Response`: parsing a response packet

`mica_client::receive` walks the records of a response packet and hands each one, as a shared
part of the packet, to the descriptor that its header names. This file has the walk and the
accessors of `mica_response`. `receive` only takes packets with one fragment, so a packet is its
bytes.

A header pointer is null when the header does not lie inside the packet, and
`packet::share` runs past the fragments when the range does not. Both are `ParseError`s. A record
has at least 24 bytes, so the packet length bounds the number of iterations, and `parseRecords`
takes it as its fuel.
-/

set_option autoImplicit false

namespace Netstar.Spec.Mica

/-- `packet::get_header(offset, size)` on a packet with one fragment: the bytes at the pointer, or
`none` for the null pointer. -/
def getHeader (p : List UInt8) (offset size : Nat) : Option (List UInt8) :=
  if offset + size ≤ p.length then some ((p.drop offset).take size) else none

/-- `packet::share(offset, len)` for a range inside the packet. -/
def share (p : List UInt8) (offset len : Nat) : List UInt8 := (p.drop offset).take len

namespace MicaResponse

/-- `_response_pkt.get_header<RequestHeader>()`. -/
def header (p : List UInt8) : Option RequestHeader :=
  (getHeader p 0 requestHeaderSize).map RequestHeader.ofBytes

/-- `get_operation`, as the value of the enumeration. -/
def getOperation (p : List UInt8) : Option UInt8 := (header p).map (·.operation)

/-- `get_key_len`. -/
def getKeyLen (p : List UInt8) : Option Nat := (header p).map (·.keyLen)

/-- `get_val_len`. -/
def getValLen (p : List UInt8) : Option Nat := (header p).map (·.valLen)

/-- `get_key<T>` for a type of `size` bytes. -/
def getKey (p : List UInt8) (size : Nat) : Option (List UInt8) := getHeader p requestHeaderSize size

/-- `get_val_tb`: the value buffer, padding included. -/
def getValTb (p : List UInt8) : Option (List UInt8) :=
  (header p).map fun rh =>
    share p (requestHeaderSize + roundup8 rh.keyLen) (roundup8 rh.valLen)

end MicaResponse

/-- The ways in which the walk leaves the packet. -/
inductive ParseError where
  | nullHeader
  | sharePastEnd
  | outOfFuel
  deriving DecidableEq, Repr

/-- A record of a response packet: its header, and the shared part of the packet that
`match_response` gets. -/
structure ResponseRecord where
  rh : RequestHeader
  pkt : List UInt8
  deriving DecidableEq, Repr

/-- `total_reponse_length`. -/
def totalResponseLength (rh : RequestHeader) : Nat :=
  requestHeaderSize + roundup8 rh.keyLen + roundup8 rh.valLen

/-- The loop of `mica_client::receive`: the records from `offset` on, and the offset at the end
of the loop. -/
def parseRecords (p : List UInt8) : Nat → Nat → Except ParseError (List ResponseRecord × Nat)
  | 0, offset => if offset < p.length then .error .outOfFuel else .ok ([], offset)
  | fuel + 1, offset =>
    if offset < p.length then
      match getHeader p offset requestHeaderSize with
      | none => .error .nullHeader
      | some bytes =>
        let rh := RequestHeader.ofBytes bytes
        if offset + totalResponseLength rh ≤ p.length then
          match parseRecords p fuel (offset + totalResponseLength rh) with
          | .error e => .error e
          | .ok (records, last) =>
            .ok (⟨rh, share p offset (totalResponseLength rh)⟩ :: records, last)
        else .error .sharePastEnd
    else .ok ([], offset)

/-- The records of a packet, walked from the end of its batch header. -/
def receiveRecords (p : List UInt8) : Except ParseError (List ResponseRecord × Nat) :=
  parseRecords p p.length requestBatchHeaderSize

end Netstar.Spec.Mica
