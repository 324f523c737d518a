import Netstar.Spec.Net.Ip

/-!
# `Netstar.Spec.Net.Checksummer`: the checksum of a string in pieces

`checksummer` of `net/ip_checksum.hh` adds up a byte string that comes in pieces: memory, the
fragments of a packet, or numbers of a header. It keeps the sum and whether the bytes so far are odd
in number. `get` folds the sum to 16 bits.

An error is a step without a meaning: a read outside the memory that `sum` was given, or a sum that
leaves the 128 bits of the signed accumulator.
-/

set_option autoImplicit false

namespace Netstar.Spec.Net

/-- What the checksummer cannot go on from. -/
inductive ChecksumError where
  | outside
  | overflow
  deriving DecidableEq, Repr

/-- `checksummer`, with its sum and its parity. -/
structure Checksummer where
  csum : Nat
  odd : Bool
  deriving DecidableEq, Repr

namespace Checksummer

/-- A new checksummer. -/
def create : Checksummer := ⟨0, false⟩

/-- `csum += n` in an `__int128`. -/
def addCsum (c : Checksummer) (n : Nat) : Except ChecksumError Checksummer :=
  if c.csum + n < 2 ^ 127 then .ok { c with csum := c.csum + n } else .error .overflow

/-- `sum` of memory. After an odd number of bytes the first byte is read before the length is looked
at. The sum only grows, so the words of the loops are added at once. -/
def sumData (c : Checksummer) (data : List UInt8) : Except ChecksumError Checksummer := do
  let odd := c.odd ^^ decide (data.length % 2 = 1)
  if c.odd then
    match data with
    | [] => .error .outside
    | b :: rest =>
      let c ← c.addCsum b.toNat
      let c ← c.addCsum (checksumLoop rest)
      .ok { c with odd := odd }
  else
    let c ← c.addCsum (checksumLoop data)
    .ok { c with odd := odd }

/-- `sum` of a packet. -/
def sumPacket (c : Checksummer) (fragments : List (List UInt8)) : Except ChecksumError Checksummer :=
  fragments.foldlM sumData c

/-- `sum(uint8_t)`. -/
def sumU8 (c : Checksummer) (data : UInt8) : Except ChecksumError Checksummer := do
  let c' ← if !c.odd then c.addCsum (data.toNat * 256) else c.addCsum data.toNat
  .ok { c' with odd := !c.odd }

/-- `sum(uint16_t)`. -/
def sumU16 (c : Checksummer) (data : UInt16) : Except ChecksumError Checksummer :=
  if c.odd then do
    let c ← c.sumU8 (data >>> 8).toUInt8
    c.sumU8 data.toUInt8
  else c.addCsum data.toNat

/-- The low half goes first after an odd number of bytes. -/
def sumU32 (c : Checksummer) (data : UInt32) : Except ChecksumError Checksummer :=
  if c.odd then do
    let c ← c.sumU16 data.toUInt16
    c.sumU16 (data >>> 16).toUInt16
  else c.addCsum data.toNat

/-- `get`, as the host's number. -/
def get (c : Checksummer) : Nat := hton 2 (checksumGet c.csum)

end Checksummer

/-- A call of `sum`. `sum_many` is one call for each of its arguments. -/
inductive SumCall where
  | memory (bytes : List UInt8)
  | packet (fragments : List (List UInt8))
  | u8 (data : UInt8)
  | u16 (data : UInt16)
  | u32 (data : UInt32)
  deriving DecidableEq, Repr

namespace SumCall

/-- One call of the checksummer. -/
def run (c : Checksummer) : SumCall → Except ChecksumError Checksummer
  | .memory bytes => c.sumData bytes
  | .packet fragments => c.sumPacket fragments
  | .u8 data => c.sumU8 data
  | .u16 data => c.sumU16 data
  | .u32 data => c.sumU32 data

/-- All calls, on a new checksummer. -/
def runAll (calls : List SumCall) : Except ChecksumError Checksummer :=
  calls.foldlM run .create

/-- The pieces of the byte string that a call stands for. A number has its bytes in network order. -/
def pieces : SumCall → List (List UInt8)
  | .memory bytes => [bytes]
  | .packet fragments => fragments
  | .u8 data => [[data]]
  | .u16 data => [[(data >>> 8).toUInt8, data.toUInt8]]
  | .u32 data =>
    [[(data >>> 24).toUInt8, (data >>> 16).toUInt8, (data >>> 8).toUInt8, data.toUInt8]]

/-- The pieces of all calls. -/
def allPieces (calls : List SumCall) : List (List UInt8) := calls.flatMap pieces

/-- The byte string. -/
def string (calls : List SumCall) : List UInt8 := (allPieces calls).flatten

end SumCall

end Netstar.Spec.Net
