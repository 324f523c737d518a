import Netstar.Lib.ChunkedCoding
import Netstar.Spec.Core.OutputStream

/-!
# `Netstar.Spec.Http.ChunkedOutput`: the body of a reply, in chunks

The stream of a body writer is an `output_stream` without `batch_flushes`, so `_in_batch`, `_flushing`
and `_ex` keep their first values and a put goes to the sink at once. The body writer waits for the
future of a call before it makes the next one, so a call here is a function, and the puts of a call
are complete when it returns.

The sink of that stream writes to the connection's stream. `out` is the list of the writes on
`con.out()`, and a cell of a write is `none` until it is written.
-/

set_option autoImplicit false

namespace Netstar.Spec.Http

open Netstar.Lib.ChunkedCoding (crlf hex)
open Netstar.Spec.Core
open Netstar.Spec.Core.OutputStream (allocateBuffer copyTo)

/-- Why the program stops. -/
inductive BodyStop where
  | stream (fault : StreamFault)
  | abort
  deriving DecidableEq, Repr

/-- The bytes of a text. -/
def text (s : String) : List UInt8 := s.toList.map fun c => UInt8.ofNat c.toNat

/-- The stream of a body writer and the writes on `con.out()`. A stream of size zero does not exist:
the loops of `split_and_put` would not end. -/
structure ChunkedStream where
  stream : OutputStream UInt8
  size_pos : 0 < stream.size
  out : List (List (Option UInt8))

/-- `make_http_chunked_output_stream`. -/
def makeHttpChunkedOutputStream (out : List (List (Option UInt8))) : ChunkedStream where
  stream := .create 32000 true false
  size_pos := by decide
  out := out

namespace ChunkedStream

/-- `http_chunked_data_sink_impl::write_size`. -/
def writeSize (s : ChunkedStream) (n : Nat) : ChunkedStream :=
  { s with out := s.out ++ [(hex n ++ crlf).map some] }

/-- `http_chunked_data_sink_impl::put(temporary_buffer)`. -/
def fdPut (s : ChunkedStream) (buf : List (Option UInt8)) : ChunkedStream :=
  if buf.length = 0 then s
  else
    let s := s.writeSize buf.length
    { s with out := s.out ++ [buf] ++ [crlf.map some] }

/-- `http_chunked_data_sink_impl::put(packet)`. -/
def fdPutPacket (_ : ChunkedStream) (_ : List UInt8) : Except BodyStop ChunkedStream := .error .abort

/-- `put`. -/
def put (s : ChunkedStream) (buf : List (Option UInt8)) : ChunkedStream :=
  { s with stream.flush := false }.fdPut buf

/-- `zero_copy_put`. -/
def zeroCopyPut (s : ChunkedStream) (p : List UInt8) : Except BodyStop ChunkedStream :=
  { s with stream.flush := false }.fdPutPacket p

/-- `std::copy` to the cells of a buffer from `pos` on. -/
def copy (buf : List (Option UInt8)) (pos : Nat) (src : List (Option UInt8)) :
    Except BodyStop (List (Option UInt8)) :=
  (copyTo buf pos src).mapError .stream

/-- The loop of `split_and_put`. -/
def splitLoop (s : ChunkedStream) (buf : List (Option UInt8)) : Except BodyStop ChunkedStream :=
  if buf.length < s.stream.size then do
    let dst := if s.stream.buf.isEmpty then allocateBuffer s.stream.size else s.stream.buf
    let dst ← copy dst 0 buf
    return { s with stream.buf := dst, stream.endPos := buf.length }
  else
    (s.put (buf.take s.stream.size)).splitLoop (buf.drop s.stream.size)
termination_by buf.length
decreasing_by
  have hpos := s.size_pos
  rw [List.length_drop]
  omega

/-- `split_and_put`. -/
def splitAndPut (s : ChunkedStream) (buf : List (Option UInt8)) : Except BodyStop ChunkedStream :=
  if s.stream.endPos = 0 then s.splitLoop buf else .error (.stream .assertion)

/-- `zero_copy_split_and_put`. -/
def zeroCopySplitAndPut (s : ChunkedStream) (p : List UInt8) : Except BodyStop ChunkedStream :=
  if p.length < s.stream.size then
    .ok { s with stream.zcBufs := if p.length ≠ 0 then some p else none }
  else do
    let t ← s.zeroCopyPut (p.take s.stream.size)
    t.zeroCopySplitAndPut (p.drop s.stream.size)
termination_by p.length
decreasing_by
  have hpos := s.size_pos
  rw [List.length_drop]
  omega

/-- The end of a bulk write. -/
def bulkPut (s : ChunkedStream) (tmp : List (Option UInt8)) : Except BodyStop ChunkedStream :=
  if s.stream.trimToSize then s.splitAndPut tmp else .ok (s.put tmp)

/-- `write(buf, n)`, which the writes of strings call. -/
def write (s : ChunkedStream) (data : List (Option UInt8)) : Except BodyStop ChunkedStream := do
  if s.stream.zcBufs.isSome then throw (.stream .assertion)
  let n := data.length
  let size := s.stream.size
  let endPos := s.stream.endPos
  let bulkThreshold := if endPos ≠ 0 then 2 * size - endPos else size
  if n ≥ bulkThreshold then
    if endPos ≠ 0 then
      let now := size - endPos
      let buf ← copy s.stream.buf endPos (data.take now)
      let tmp ← copy (allocateBuffer (n - now)) 0 (data.drop now)
      ({ s with stream.buf := [], stream.endPos := 0 }.put (buf.take size)).bulkPut tmp
    else
      -- With an empty buffer the bytes go past it in one piece.
      let tmp ← copy (allocateBuffer n) 0 data
      s.bulkPut tmp
  else
    let buf := if s.stream.buf.isEmpty then allocateBuffer size else s.stream.buf
    let now := min n (size - endPos)
    let buf ← copy buf endPos (data.take now)
    if now = n then
      return { s with stream.buf := buf, stream.endPos := endPos + now }
    else
      -- The bytes overflow the buffer: it is put full, and the next one takes the rest.
      let next ← copy (allocateBuffer size) 0 (data.drop now)
      return { s with stream.buf := next, stream.endPos := n - now }.put buf

/-- `write(packet)`. -/
def writePacket (s : ChunkedStream) (p : List UInt8) : Except BodyStop ChunkedStream :=
  if p.length ≠ 0 then
    if s.stream.endPos = 0 then
      let zcBufs := s.stream.appended p
      if zcBufs.length ≥ s.stream.size then
        let s := { s with stream.zcBufs := none }
        if s.stream.trimToSize then s.zeroCopySplitAndPut zcBufs else s.zeroCopyPut zcBufs
      else .ok { s with stream.zcBufs := some zcBufs }
    else .error (.stream .assertion)
  else .ok s

/-- `write(temporary_buffer)`. -/
def writeBuffer (s : ChunkedStream) (p : List UInt8) : Except BodyStop ChunkedStream :=
  if p.length = 0 then .ok s
  else if s.stream.endPos = 0 then s.writePacket p
  else .error (.stream .assertion)

/-- `flush` without `batch_flushes`. The flush of the sink does nothing. -/
def flush (s : ChunkedStream) : Except BodyStop ChunkedStream :=
  if s.stream.endPos ≠ 0 then
    .ok ({ s with stream.buf := [], stream.endPos := 0 }.put (s.stream.buf.take s.stream.endPos))
  else
    match s.stream.zcBufs with
    | some p => { s with stream.zcBufs := none }.zeroCopyPut p
    | none => .ok s

/-- `close`. The close of the sink does nothing. -/
def close (s : ChunkedStream) : Except BodyStop ChunkedStream := s.flush

end ChunkedStream

/-- A call of a body writer on its stream. -/
inductive BodyCall where
  | write (data : List UInt8)
  | writeBuffer (p : List UInt8)
  | writePacket (p : List UInt8)
  | writeScattered (fragments : List (List UInt8))
  | flush
  deriving DecidableEq, Repr

namespace BodyCall

/-- The bytes that are written. -/
def bytes : BodyCall → List UInt8
  | .write data => data
  | .writeBuffer p => p
  | .writePacket p => p
  | .writeScattered fragments => fragments.flatten
  | .flush => []

/-- The bytes that are written without a copy. -/
def zeroCopyBytes : BodyCall → List UInt8
  | .write _ => []
  | c => c.bytes

/-- The stream performs a call. -/
def perform (s : ChunkedStream) : BodyCall → Except BodyStop ChunkedStream
  | .write data => s.write (data.map some)
  | .writeBuffer p => s.writeBuffer p
  | .writePacket p => s.writePacket p
  | .writeScattered fragments => s.writePacket fragments.flatten
  | .flush => s.flush

end BodyCall

/-- The calls of a body writer, and its final close. -/
def bodyWriter (calls : List BodyCall) (s : ChunkedStream) : Except BodyStop ChunkedStream := do
  let s ← calls.foldlM BodyCall.perform s
  s.close

/-- What a reply with a body writer says before the body. -/
structure Reply where
  responseLine : List UInt8
  headers : List (List UInt8 × List UInt8)

namespace Reply

/-- `add_header`. The order of the headers is that of the list. -/
def addHeader (r : Reply) (h value : List UInt8) : Reply :=
  { r with headers := r.headers.filter (fun header => header.1 ≠ h) ++ [(h, value)] }

/-- `write_reply_headers`. -/
def writeReplyHeaders (r : Reply) : List (List UInt8) :=
  r.headers.map fun h => h.1 ++ text ": " ++ h.2 ++ text "\r\n"

/-- The writes on `con.out()` before the body. -/
def head (r : Reply) : List (List UInt8) :=
  let r := r.addHeader (text "Transfer-Encoding") (text "chunked")
  [r.responseLine] ++ r.writeReplyHeaders ++ [text "\r\n"]

/-- `write_reply_to_connection`. -/
def writeReplyToConnection (r : Reply) (calls : List BodyCall) :
    Except BodyStop (List (List (Option UInt8))) := do
  let s ← bodyWriter calls (makeHttpChunkedOutputStream (r.head.map (List.map some)))
  return s.out

/-- `start_response` for a reply with a body writer: the writes on `con.out()`. -/
def startResponse (r : Reply) (calls : List BodyCall) : Except BodyStop (List (List (Option UInt8))) := do
  let out ← r.writeReplyToConnection calls
  return out ++ [(text "0\r\n\r\n").map some]

end Reply

end Netstar.Spec.Http
