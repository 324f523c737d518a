import Netstar.Lib.LittleEndian

/-!
# `Netstar.Spec.Mica.Def`: the wire format of `mica_def.hh`

A MICA packet is a 48-byte batch header followed by records. A record is a 24-byte
`RequestHeader`, the key padded to a multiple of 8 bytes, and the value padded the same way. The
client copies the header structures to and from the packet, so a header is the memory image of
the structure on a little-endian machine.
-/

set_option autoImplicit false

namespace Netstar.Spec.Mica

open Netstar.Lib

/-- `enum class Operation : uint8_t`. -/
inductive Operation where
  | kReset
  | kNoopRead
  | kNoopWrite
  | kAdd
  | kSet
  | kGet
  | kTest
  | kDelete
  | kIncrement
  deriving DecidableEq, Repr

/-- `static_cast<uint8_t>(op)`. -/
def Operation.toByte : Operation → UInt8
  | .kReset => 0
  | .kNoopRead => 1
  | .kNoopWrite => 2
  | .kAdd => 3
  | .kSet => 4
  | .kGet => 5
  | .kTest => 6
  | .kDelete => 7
  | .kIncrement => 8

/-- `static_cast<uint8_t>(Result::kSuccess)`. -/
def resultSuccess : UInt8 := 0

/-- `RequestHeader`. -/
structure RequestHeader where
  operation : UInt8
  result : UInt8
  reserved0 : BitVec 16
  /-- The key length in the upper 8 bits, the value length in the lower 24 bits. -/
  kvLengthVec : BitVec 32
  keyHash : BitVec 64
  opaqueId : BitVec 32
  reserved1 : BitVec 32
  deriving DecidableEq, Repr

/-- `sizeof(RequestHeader)`. -/
def requestHeaderSize : Nat := 24

/-- `sizeof(RequestBatchHeader)`. -/
def requestBatchHeaderSize : Nat := 48

namespace RequestHeader

/-- The bytes of the structure. -/
def toBytes (h : RequestHeader) : List UInt8 :=
  [h.operation, h.result] ++ LittleEndian.encode 2 h.reserved0.toNat ++
    LittleEndian.encode 4 h.kvLengthVec.toNat ++ LittleEndian.encode 8 h.keyHash.toNat ++
    LittleEndian.encode 4 h.opaqueId.toNat ++ LittleEndian.encode 4 h.reserved1.toNat

/-- The structure that `reinterpret_cast` finds at the start of the bytes. -/
def ofBytes (b : List UInt8) : RequestHeader where
  operation := b.getD 0 0
  result := b.getD 1 0
  reserved0 := BitVec.ofNat 16 (LittleEndian.decode ((b.drop 2).take 2))
  kvLengthVec := BitVec.ofNat 32 (LittleEndian.decode ((b.drop 4).take 4))
  keyHash := BitVec.ofNat 64 (LittleEndian.decode ((b.drop 8).take 8))
  opaqueId := BitVec.ofNat 32 (LittleEndian.decode ((b.drop 16).take 4))
  reserved1 := BitVec.ofNat 32 (LittleEndian.decode ((b.drop 20).take 4))

/-- `kv_length_vec >> 24`. -/
def keyLen (h : RequestHeader) : Nat := (h.kvLengthVec >>> 24).toNat

/-- `kv_length_vec & ((1 << 24) - 1)`. -/
def valLen (h : RequestHeader) : Nat := (h.kvLengthVec &&& 0xffffff#32).toNat

/-- `opaque >> 16`, the index of the request descriptor. -/
def rdIdx (h : RequestHeader) : Nat := (h.opaqueId >>> 16).toNat

/-- `opaque & ((1 << 16) - 1)`, the epoch of the request descriptor. -/
def epoch (h : RequestHeader) : BitVec 16 := (h.opaqueId &&& 0xffff#32).setWidth 16

end RequestHeader

/-- `roundup<8>`: `(x + 7) & ~7`. -/
def roundup8 (x : Nat) : Nat := (x + 7) / 8 * 8

end Netstar.Spec.Mica
