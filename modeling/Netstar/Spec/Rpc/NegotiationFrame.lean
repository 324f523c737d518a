import Mathlib.Order.Fin.Basic
import Netstar.Lib.SortedMap
import Netstar.Spec.Rpc.Frame

/-!
# `Netstar.Spec.Rpc.NegotiationFrame`: the negotiation frame

Each end sends one frame with its features: the magic, the length of what follows, and for each feature
its number, the length of its data, and the data.

The parser walks with pointers over the bytes that were announced. A pointer is an offset here, and a
read outside of these bytes has the result `outside`, which stands for undefined behaviour. The
difference of two pointers is signed, and the comparisons convert the other operand to it.
-/

set_option autoImplicit false

namespace Netstar.Spec.Rpc.NegotiationFrame

open Netstar.Lib
open Netstar.Spec.Core

/-- `protocol_features`, whose type is `uint32_t`. -/
abbrev ProtocolFeatures := Fin (2 ^ 32)

/-- `feature_map`. -/
abbrev FeatureMap := SortedMap ProtocolFeatures Bytes

/-- `rpc_magic`. -/
def rpcMagic : Bytes := [0x53, 0x53, 0x54, 0x41, 0x52, 0x52, 0x50, 0x43]

/-- `sizeof(negotiation_frame)`. -/
def headerSize : Nat := 12

/-! ### The sender -/

/-- `negotiation_frame_feature_record_size`. -/
def recordSize (e : ProtocolFeatures × Bytes) : Nat := 8 + e.2.length

/-- `extra_len`. The sum is a `uint32_t`. -/
def extraLen (features : FeatureMap) : UInt32 :=
  features.entries.foldl (fun sum e => UInt32.ofNat (sum.toNat + recordSize e)) 0

/-- The bytes that are written for a feature. -/
def recordBytes (e : ProtocolFeatures × Bytes) : Bytes :=
  LittleEndian.encode 4 e.1.val ++ LittleEndian.encode 4 e.2.length ++ e.2

/-- `send_negotiation_frame`. It has no result if a write is behind the end of `reply`. No byte of
`reply` is left out. -/
def sendNegotiationFrame (features : FeatureMap) : Option Bytes :=
  let size := headerSize + (extraLen features).toNat
  let written := rpcMagic ++ LittleEndian.encode 4 (extraLen features).toNat ++
    (features.entries.map recordBytes).flatten
  if written.length ≤ size then some written else none

/-! ### The receiver -/

/-- What `receive_negotiation_frame` returns: the map, or `closed_error` with what was logged. -/
inductive Received where
  | map (features : FeatureMap)
  | closedError (log : Option String)
  | outside

/-- The `n` bytes at the pointer `p`. -/
def load (extra : Bytes) (p n : Nat) : Option Bytes :=
  if p + n ≤ extra.length then some ((extra.drop p).take n) else none

/-- `read_le<uint32_t>` of four bytes. -/
def readLe32 (bs : Bytes) : ProtocolFeatures := Fin.ofNat (2 ^ 32) (LittleEndian.decode bs)

/-- The `while` loop. `last` is `end - p`. -/
def readFeatures (extra : Bytes) (p : Nat) (map : FeatureMap) : Received :=
  let last : Int := extra.length - p
  if p = extra.length then .map map
  else if last < 8 then .closedError (some "bad feature data format in negotiation frame")
  else
    match load extra p 4, load extra (p + 4) 4 with
    | some number, some len =>
      let fLen := (readLe32 len).val
      if (fLen : Int) > last - 8 then
        .closedError (some "buffer underflow in feature data in negotiation frame")
      else
        match load extra (p + 8) fLen with
        | some data => readFeatures extra (p + 8 + fLen) (map.emplace (readLe32 number) data)
        | none => .outside
    | _, _ => .outside
termination_by extra.length - p
decreasing_by
  omega

/-- `receive_negotiation_frame`. A frame that is cut short is logged only if something has arrived. -/
def receiveNegotiationFrame (s : InputStream UInt8) : Received × InputStream UInt8 :=
  let neg := InputStream.readExactly s.eof headerSize s.fd s.buf
  if neg.1.length ≠ headerSize then
    (.closedError
      (if neg.1.length ≠ 0 then some "unexpected eof during negotiation frame" else none), neg.2)
  else if neg.1.take 8 ≠ rpcMagic then (.closedError (some "wrong protocol magic"), neg.2)
  else
    let len := readLe 4 8 neg.1
    let extra := InputStream.readExactly neg.2.eof len neg.2.fd neg.2.buf
    if extra.1.length ≠ len then
      (.closedError (some "unexpected eof during negotiation frame"), extra.2)
    else (readFeatures extra.1 0 .empty, extra.2)

/-! ### The grammar -/

/-- A record: a number, and data whose length is a `uint32_t`. -/
structure FeatureRecord where
  number : ProtocolFeatures
  data : Bytes
  fits : data.length < 2 ^ 32

/-- Number, length, and that many bytes. -/
def FeatureRecord.bytes (r : FeatureRecord) : Bytes :=
  LittleEndian.encode 4 r.number.val ++ LittleEndian.encode 4 r.data.length ++ r.data

/-- The data of the first record of a feature. -/
def firstRecord (rs : List FeatureRecord) (k : ProtocolFeatures) : Option Bytes :=
  (rs.find? fun r => r.number = k).map (·.data)

/-- The bytes start with a frame of these records: the magic, their length, and they are all there.
`rest` is what follows. -/
def Frame (input : Bytes) (rs : List FeatureRecord) (rest : Bytes) : Prop :=
  (rs.map FeatureRecord.bytes).flatten.length < 2 ^ 32 ∧
    input = rpcMagic ++ LittleEndian.encode 4 (rs.map FeatureRecord.bytes).flatten.length ++
      (rs.map FeatureRecord.bytes).flatten ++ rest

/-- The bytes of a stream that was just made. -/
def input (fd : List (SourceBuf UInt8)) : Bytes := (fd.map Subtype.val).flatten

/-- What the sender emits arrives, for every cut of the stream, and nothing behind it is read. -/
def RoundTrips (features : FeatureMap) : Prop :=
  ∃ frame, sendNegotiationFrame features = some frame ∧ ∀ fd rest, input fd = frame ++ rest →
    ∃ s, receiveNegotiationFrame (.create fd) = (.map features, s) ∧ s.buf ++ input s.fd = rest

/-- The receiver reads only what was announced, and it accepts the grammar. Each feature gets the data
of its first record. -/
structure Accepts (fd : List (SourceBuf UInt8)) : Prop where
  inside : (receiveNegotiationFrame (.create fd)).1 ≠ .outside
  exact : ∀ map : FeatureMap, (receiveNegotiationFrame (.create fd)).1 = .map map ↔
    ∃ rs rest, Frame (input fd) rs rest ∧ ∀ k, map.lookup k = firstRecord rs k
  taken : ∀ extra rest, extra.length < 2 ^ 32 →
    input fd = rpcMagic ++ LittleEndian.encode 4 extra.length ++ extra ++ rest →
    (receiveNegotiationFrame (.create fd)).2.buf ++
      input (receiveNegotiationFrame (.create fd)).2.fd = rest

end Netstar.Spec.Rpc.NegotiationFrame
