import Netstar.Lib.LittleEndian
import Netstar.Spec.Core.InputStream

/-!
# `Netstar.Spec.Rpc.Frame`: the frames of a connection

`send_helper` and `respond` write the header of a frame into the space that `marshall` left for it,
and `send_loop` writes the timeout or trims the space of it, compresses the buffer and hands its
chunks to the output stream. The other side reads frames from an `input_stream`.

The bytes of memory that nobody has written yet are `uninit`, a parameter. A write behind the end of
the first chunk has no result, and neither has a `compress` or `decompress` that throws.

A compressor is a parameter. `Compressor.Inverts` is what the interface asks for. `lz4Compressor` is
`lz4_compressor` over the two calls of the LZ4 library.
-/

set_option autoImplicit false

namespace Netstar.Spec.Rpc

open Netstar.Lib
open Netstar.Spec.Core

/-- The bytes of a `temporary_buffer`. -/
abbrev Bytes := List UInt8

/-- `boost::variant<std::vector<temporary_buffer<char>>, temporary_buffer<char>>`. -/
inductive Bufs (B : Type) where
  | many (v : List B)
  | one (b : B)

/-- The buffers in their order. -/
def Bufs.toList {B : Type} : Bufs B → List B
  | .many v => v
  | .one b => [b]

/-! ### Buffers to send -/

/-- `snd_buf`. -/
structure SndBuf where
  size : UInt32
  bufs : Bufs Bytes

namespace SndBuf

/-- `chunk_size`. -/
def chunkSize : Nat := 128 * 1024

/-- The chunks that the constructor allocates, here with the bytes that they are going to have. -/
def chunks (bs : Bytes) : List Bytes :=
  if bs = [] then []
  else bs.take chunkSize :: chunks (bs.drop chunkSize)
termination_by bs.length
decreasing_by
  rename_i hne
  have := List.length_pos_iff.mpr hne
  rw [List.length_drop, chunkSize]
  omega

/-- The constructor, for memory with these bytes. -/
def create (bs : Bytes) : SndBuf where
  size := UInt32.ofNat bs.length
  bufs := if bs.length ≤ chunkSize then .one bs else .many (chunks bs)

/-- The bytes that `send_buffer` writes. -/
def bytes (b : SndBuf) : Bytes := b.bufs.toList.flatten

/-- `front`. The vector must not be empty. -/
def front (b : SndBuf) : Option Bytes := b.bufs.toList.head?

/-- The buffer with another first chunk. -/
def setFront (b : SndBuf) (front : Bytes) : SndBuf :=
  match b.bufs with
  | .one _ => { b with bufs := .one front }
  | .many v => { b with bufs := .many (front :: v.tail) }

/-- The bytes with some of them written over. -/
def overwrite (offset : Nat) (bs into : Bytes) : Bytes :=
  into.take offset ++ bs ++ into.drop (offset + bs.length)

/-- `write_le` at an offset of the first chunk. -/
def writeFront (b : SndBuf) (offset : Nat) (bs : Bytes) : Option SndBuf := do
  let front ← b.front
  if offset + bs.length ≤ front.length then some (b.setFront (overwrite offset bs front)) else none

/-- `front().trim_front(n)`, and the size with it. -/
def trimFront (b : SndBuf) (n : Nat) : Option SndBuf := do
  let front ← b.front
  if n ≤ front.length then
    some { b.setFront (front.drop n) with size := b.size - UInt32.ofNat n }
  else none

/-- The size is that of the chunks. -/
def Sized (b : SndBuf) : Prop := b.size.toNat = b.bytes.length

end SndBuf

/-- `marshall`, for arguments that serialize to `payload`. -/
def marshall (uninit : Nat → UInt8) (headSpace : Nat) (payload : Bytes) : SndBuf :=
  .create ((List.range headSpace).map uninit ++ payload)

/-! ### Received buffers -/

/-- `rcv_buf`. None of its buffers is empty. -/
structure RcvBuf where
  size : UInt32
  bufs : Bufs (SourceBuf UInt8)

namespace RcvBuf

/-- `rcv_buf()`. -/
def empty : RcvBuf := ⟨0, .many []⟩

/-- The bytes of the buffers. -/
def bytes (b : RcvBuf) : Bytes := (b.bufs.toList.map Subtype.val).flatten

/-- The size is that of the buffers. -/
def Sized (b : RcvBuf) : Prop := b.size.toNat = b.bytes.length

end RcvBuf

/-! ### Compressors -/

/-- `compressor`. -/
structure Compressor where
  compress : Nat → SndBuf → Option SndBuf
  decompress : RcvBuf → Option RcvBuf

/-- `compress` leaves the space that the connection asks for in the first chunk, and `decompress`
inverts it, however the compressed bytes are cut into buffers. -/
structure Compressor.Inverts (c : Compressor) : Prop where
  sized : ∀ {data out}, data.Sized → data.bytes ≠ [] → c.compress 4 data = some out → out.Sized
  space : ∀ {data out}, data.Sized → data.bytes ≠ [] → c.compress 4 data = some out →
    ∃ front, out.front = some front ∧ 4 ≤ front.length
  inverse : ∀ {data out}, data.Sized → data.bytes ≠ [] → c.compress 4 data = some out →
    ∀ r : RcvBuf, r.Sized → r.bytes = out.bytes.drop 4 →
      ∃ d, c.decompress r = some d ∧ d.bytes = data.bytes

/-- The calls of the LZ4 library. `compress` is zero, here `none`, if it fails, and its output fits
into the buffer of `LZ4_compressBound`, which is less than `2^32` with the two headers. -/
structure Lz4 where
  compress : Bytes → Option Bytes
  decompressFast : Bytes → Nat → Option Bytes
  fits : ∀ {src dst}, compress src = some dst → dst.length + 8 < 2 ^ 32
  inverts : ∀ {src dst}, compress src = some dst → decompressFast dst src.length = some src

namespace Lz4

/-- `lz4_compressor::compress`. -/
def compressBuf (lz4 : Lz4) (uninit : Nat → UInt8) (headSpace : Nat) (data : SndBuf) :
    Option SndBuf := do
  let dst ← lz4.compress data.bytes
  let bs := (List.range headSpace).map uninit ++ LittleEndian.encode 4 data.size.toNat ++ dst
  some ⟨UInt32.ofNat bs.length, .one bs⟩

/-- `lz4_compressor::decompress`. -/
def decompressBuf (lz4 : Lz4) (data : RcvBuf) : Option RcvBuf :=
  if data.size < 4 then some .empty
  else
    let size := UInt32.ofNat (LittleEndian.decode (data.bytes.take 4))
    if size ≠ 0 then do
      let dst ← lz4.decompressFast (data.bytes.drop 4) size.toNat
      if h : dst = [] then some .empty else some ⟨size, .one ⟨dst, h⟩⟩
    else some data

/-- `lz4_compressor`. -/
def compressor (lz4 : Lz4) (uninit : Nat → UInt8) : Compressor where
  compress := lz4.compressBuf uninit
  decompress := lz4.decompressBuf

end Lz4

/-! ### The frames of the sender -/

/-- What a connection has negotiated. -/
structure Negotiated where
  compressor : Option Compressor
  timeoutNegotiated : Bool

/-- `compress` of a connection. -/
def Negotiated.compress (c : Negotiated) (buf : SndBuf) : Option SndBuf :=
  match c.compressor with
  | some comp => do
    let buf ← comp.compress 4 buf
    buf.writeFront 0 (LittleEndian.encode 4 (buf.size - 4).toNat)
  | none => some buf

/-- The compressor inverts. -/
def Negotiated.Inverts (c : Negotiated) : Prop := ∀ comp ∈ c.compressor, comp.Inverts

/-- The message types, which are cast to `uint64_t` and back. -/
structure MsgType (T : Type) where
  toWire : T → UInt64
  ofWire : UInt64 → T
  ofWire_toWire : ∀ t, ofWire (toWire t) = t

/-- A call of `send_helper`. `timeLeft` are the milliseconds that its timer has when it is sent. -/
structure Request (T : Type) where
  type : T
  id : Int64
  payload : Bytes
  timeLeft : Option Int64
  uninit : Nat → UInt8
  fits : payload.length + 28 < 2 ^ 32

/-- A call of `respond`. -/
structure Response where
  id : Int64
  payload : Bytes
  uninit : Nat → UInt8
  fits : payload.length + 12 < 2 ^ 32

/-- The buffer that `respond` puts into the queue. -/
def respond (r : Response) : Option SndBuf := do
  let data := marshall r.uninit 12 r.payload
  let data ← data.writeFront 0 (LittleEndian.encode 8 r.id.toUInt64.toNat)
  data.writeFront 8 (LittleEndian.encode 4 (data.size - 12).toNat)

/-- The milliseconds that `send_loop` writes. They are zero without a timeout. -/
def timeLeftMs {T : Type} (r : Request T) : UInt64 :=
  match r.timeLeft with
  | some ms => ms.toUInt64
  | none => 0

/-- The rounds of `send_loop`, and what each of them writes. It ends when one throws. -/
def sendLoop {M : Type} (c : Negotiated) (buf : M → Option SndBuf) : List M → List Bytes
  | [] => []
  | m :: queue =>
    match (buf m).bind c.compress with
    | some out => out.bytes :: sendLoop c buf queue
    | none => []

/-! ### The frames of the receiver -/

/-- A frame type. `H` is its `header_type`. -/
structure FrameType (H : Type) where
  headerSize : Nat
  decodeHeader : Bytes → H
  getSize : H → UInt32

/-- `header_type` of `request_frame`. -/
structure RequestHeader (T : Type) where
  expire : Option UInt64
  type : T
  id : Int64
  size : UInt32

/-- `read_le` of `n` bytes. -/
def readLe (n offset : Nat) (bs : Bytes) : Nat := LittleEndian.decode ((bs.drop offset).take n)

/-- The `repeat` of `read_rcv_buf`: what is left, the buffers, and the stream. -/
def readMore (s : InputStream UInt8) (left : Nat) (v : List (SourceBuf UInt8)) :
    Nat × List (SourceBuf UInt8) × InputStream UInt8 :=
  let r := s.readUpTo left
  if h : r.1 = [] then (left, v, r.2)
  else if left - r.1.length = 0 then (0, v ++ [⟨r.1, h⟩], r.2)
  else readMore r.2 (left - r.1.length) (v ++ [⟨r.1, h⟩])
termination_by left
decreasing_by
  have := List.length_pos_iff.mpr h
  show left - r.1.length < left
  omega

/-- `read_rcv_buf`. -/
def readRcvBuf (s : InputStream UInt8) (size : UInt32) : RcvBuf × InputStream UInt8 :=
  let r := s.readUpTo size.toNat
  if h : r.1 = [] then (.empty, r.2)
  else if r.1.length = size.toNat then (⟨size, .one ⟨r.1, h⟩⟩, r.2)
  else
    let m := readMore r.2 (size.toNat - r.1.length) [⟨r.1, h⟩]
    (⟨size - UInt32.ofNat m.1, .many m.2.1⟩, m.2.2)

/-- `read_frame`. `none` is `empty_value`. -/
def readFrame {H : Type} (F : FrameType H) (s : InputStream UInt8) :
    Option (H × RcvBuf) × InputStream UInt8 :=
  let r := InputStream.readExactly s.eof F.headerSize s.fd s.buf
  if r.1.length ≠ F.headerSize then (none, r.2)
  else
    let h := F.decodeHeader r.1
    let size := F.getSize h
    if size = 0 then (some (h, .empty), r.2)
    else
      let d := readRcvBuf r.2 size
      if d.1.size ≠ size then (none, d.2) else (some (h, d.1), d.2)

/-- The rest of `read_frame_compressed`, after the compression header. -/
def readCompressed {H : Type} (F : FrameType H) (comp : Compressor) (s : InputStream UInt8)
    (size : UInt32) : Option (Option (H × RcvBuf) × InputStream UInt8) :=
  let d := readRcvBuf s size
  if d.1.size ≠ size then some (none, d.2)
  else do
    let eb ← comp.decompress d.1
    some ((readFrame F (.create eb.bufs.toList)).1, d.2)

/-- `read_frame_compressed`. It has no result if `decompress` throws. -/
def readFrameCompressed {H : Type} (F : FrameType H) (c : Negotiated) (s : InputStream UInt8) :
    Option (Option (H × RcvBuf) × InputStream UInt8) :=
  match c.compressor with
  | some comp =>
    let r := InputStream.readExactly s.eof 4 s.fd s.buf
    if r.1.length ≠ 4 then some (none, r.2)
    else readCompressed F comp r.2 (UInt32.ofNat (LittleEndian.decode r.1))
  | none => some (readFrame F s)

/-- The values of `n` reads, and the stream after them. -/
def readFrames {V : Type} (read : InputStream UInt8 → Option (Option V × InputStream UInt8)) :
    Nat → InputStream UInt8 → Option (List (Option V) × InputStream UInt8)
  | 0, s => some ([], s)
  | n + 1, s => do
    let r ← read s
    let rest ← readFrames read n r.2
    some (r.1 :: rest.1, rest.2)

/-! ### What arrives -/

/-- The expiration, type, id and payload of a request. -/
structure RequestValue (T : Type) where
  expire : Option UInt64
  type : T
  id : Int64
  payload : Bytes

/-- The id and payload of a response. -/
structure ResponseValue where
  id : Int64
  payload : Bytes
  deriving DecidableEq

/-- The value that a request is to arrive as. -/
def Request.value {T : Type} (r : Request T) (c : Negotiated) : RequestValue T :=
  ⟨if c.timeoutNegotiated then some (timeLeftMs r) else none, r.type, r.id, r.payload⟩

/-- The value that a response is to arrive as. -/
def Response.value (r : Response) : ResponseValue := ⟨r.id, r.payload⟩

/-- What `read` gets from a stream with these frames: in every cut the values of the frames, and then
the empty value with nothing left. If the stream ends inside a frame, it gets the values of the frames
before it, and then the empty value. -/
structure Delivers {V W : Type} (read : InputStream UInt8 → Option (Option V × InputStream UInt8))
    (value : V → W) (frames : List Bytes) (values : List W) : Prop where
  whole : ∀ fd : List (SourceBuf UInt8), (fd.map Subtype.val).flatten = frames.flatten →
    ∃ (vs : List V) (s : InputStream UInt8),
      readFrames read frames.length (.create fd) = some (vs.map some, s) ∧
      vs.map value = values ∧ s.buf = [] ∧ s.fd = [] ∧ ∃ s', read s = some (none, s')
  short : ∀ fd : List (SourceBuf UInt8), ∀ before frame after part,
    frames = before ++ frame :: after → part <+: frame → part ≠ frame →
    (fd.map Subtype.val).flatten = before.flatten ++ part →
    ∃ (vs : List V) (s : InputStream UInt8),
      readFrames read (before.length + 1) (.create fd) = some (vs.map some ++ [none], s) ∧
      vs.map value = values.take before.length

/-- The messages of a queue arrive: each has its frame, the values that are read are those of the
messages that `send_loop` has written, and it writes all if the compressor takes all. -/
structure Arrive {M V W : Type} (c : Negotiated) (buf : M → Option SndBuf)
    (read : InputStream UInt8 → Option (Option V × InputStream UInt8)) (value : V → W)
    (sent : M → W) (msgs : List M) : Prop where
  framed : ∀ m ∈ msgs, (buf m).isSome
  complete : (∀ m ∈ msgs, ∀ b ∈ buf m, ∀ comp ∈ c.compressor, (comp.compress 4 b).isSome) →
    (sendLoop c buf msgs).length = msgs.length
  delivers : Delivers read value (sendLoop c buf msgs)
    ((msgs.map sent).take (sendLoop c buf msgs).length)

end Netstar.Spec.Rpc
