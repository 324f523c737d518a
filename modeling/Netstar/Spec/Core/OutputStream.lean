import Netstar.Lib.Run

/-!
# `Netstar.Spec.Core.OutputStream`: `output_stream` over a sink that takes its time

A `temporary_buffer` is the list of its cells, and a cell is `none` until it is written. A null
buffer is the empty list. A packet is the list of its bytes. Sizes are natural numbers: `_buf` has
`_size` bytes when `2 * _size - _end` is computed with `_end != 0`, so the product does not wrap.

A put to the sink is asynchronous. `Writer` says what a write waits for and what it does afterwards,
`FlushState` does so for an unbatched flush, and `Poller` for the chain of `poll_flush` calls.
`Session` records what went to the sink, what was written, and whether a put began while another one
was in progress. A put or a flush of the sink may fail.
-/

set_option autoImplicit false

namespace Netstar.Spec.Core

/-- Why the program stops. -/
inductive StreamFault where
  | assertion
  | outOfBounds
  | noValue
  | futureTaken
  deriving DecidableEq, Repr

/-- `output_stream`. `inBatch` says whether the future of the promise was taken. -/
structure OutputStream (α : Type) where
  buf : List (Option α)
  zcBufs : Option (List α)
  size : Nat
  endPos : Nat
  trimToSize : Bool
  batchFlushes : Bool
  inBatch : Option Bool
  flush : Bool
  flushing : Bool
  ex : Bool

namespace OutputStream

variable {α : Type}

/-- `output_stream(fd, size, trim_to_size, batch_flushes)`. -/
def create (size : Nat) (trimToSize batchFlushes : Bool) : OutputStream α where
  buf := []
  zcBufs := none
  size := size
  endPos := 0
  trimToSize := trimToSize
  batchFlushes := batchFlushes
  inBatch := none
  flush := false
  flushing := false
  ex := false

/-- `allocate_buffer`. -/
def allocateBuffer (n : Nat) : List (Option α) := List.replicate n none

/-- `std::copy` to the cells of a buffer from `pos` on. -/
def copyTo (buf : List (Option α)) (pos : Nat) (src : List (Option α)) :
    Except StreamFault (List (Option α)) :=
  if pos + src.length ≤ buf.length then .ok (buf.take pos ++ src ++ buf.drop (pos + src.length))
  else .error .outOfBounds

/-- What waits in the stream: `_buf` up to `_end`, and `_zc_bufs`. -/
def buffered (st : OutputStream α) : List (Option α) :=
  st.buf.take st.endPos ++ (st.zcBufs.getD []).map some

/-- `_zc_bufs` with a packet at its end. -/
def appended (st : OutputStream α) (p : List α) : List α :=
  match st.zcBufs with
  | some zcBufs => zcBufs ++ p
  | none => p

/-- The state of a put. -/
inductive PutState (α : Type) where
  | waiting (chunk : List (Option α))
  | resumed (chunk : List (Option α))
  | putting
  deriving DecidableEq, Repr

/-- What a write does when its put is done. -/
inductive After (α : Type) where
  | done
  | bulk (tmp : List (Option α))
  | split (buf : List (Option α))
  | zeroCopySplit (p : List α)
  deriving DecidableEq, Repr

/-- An unbatched flush: its put, and then the flush of the sink. -/
inductive FlushState (α : Type) where
  | put (state : PutState α)
  | sink
  deriving DecidableEq, Repr

/-- The chain of `poll_flush` calls. -/
inductive Poller where
  | idle
  | queued
  | putting
  | flushing
  deriving DecidableEq, Repr

/-- A put that waits for the batched flush goes on. -/
def PutState.wake : PutState α → PutState α
  | .waiting chunk => .resumed chunk
  | state => state

/-- The state behind a flush that is woken. -/
def FlushState.wake : FlushState α → FlushState α
  | .put state => .put state.wake
  | .sink => .sink

/-- The bytes that a put has not passed to the sink. -/
def PutState.bytes : PutState α → List (Option α)
  | .waiting chunk => chunk
  | .resumed chunk => chunk
  | .putting => []

/-- The bytes that are left for later. -/
def After.bytes : After α → List (Option α)
  | .done => []
  | .bulk tmp => tmp
  | .split buf => buf
  | .zeroCopySplit p => p.map some

/-- A stream, the sink and the operations in progress. `flushed` says that the last event completed
an unbatched flush. -/
structure Session (α : Type) where
  stream : OutputStream α
  zeroCopy : Bool
  writer : Option (PutState α × After α)
  flushes : List (FlushState α)
  poller : Poller
  chunks : List (List (Option α))
  inProgress : Nat
  overlapped : Bool
  written : List α
  flushed : Bool
  fault : Option StreamFault

/-- What happens to a stream. -/
inductive Event (α : Type) where
  | write (data : List α)
  | writePacket (p : List α)
  | writeBuffer (p : List α)
  | flush
  | poll
  | resume
  | finishPut (ok : Bool)
  | resumeFlush (i : Nat)
  | finishFlushPut (i : Nat) (ok : Bool)
  | finishFlush (i : Nat) (ok : Bool)
  | finishPollPut (ok : Bool)
  | finishPollFlush (ok : Bool)
  deriving DecidableEq, Repr

namespace Session

/-- A stream before the first write. -/
def create (size : Nat) (trimToSize batchFlushes zeroCopy : Bool) : Session α where
  stream := .create size trimToSize batchFlushes
  zeroCopy := zeroCopy
  writer := none
  flushes := []
  poller := .idle
  chunks := []
  inProgress := 0
  overlapped := false
  written := []
  flushed := false
  fault := none

/-- The bytes of the write in progress that are neither in the stream nor in the sink. -/
def inFlight (s : Session α) : List (Option α) :=
  match s.writer with
  | none => []
  | some (state, after) => state.bytes ++ after.bytes

/-- `_fd.put`. -/
def fdPut (s : Session α) (chunk : List (Option α)) : Session α :=
  { s with
    chunks := s.chunks ++ [chunk]
    inProgress := s.inProgress + 1
    overlapped := s.overlapped || s.inProgress != 0 }

/-- `put`. -/
def put (s : Session α) (chunk : List (Option α)) : Except StreamFault (Session α × PutState α) :=
  let s := { s with stream.flush := false }
  if s.stream.flushing then
    match s.stream.inBatch with
    | none => .error .noValue
    | some true => .error .futureTaken
    | some false => .ok ({ s with stream.inBatch := some true }, .waiting chunk)
  else .ok (s.fdPut chunk, .putting)

/-- `zero_copy_put`. -/
def zeroCopyPut (s : Session α) (p : List α) : Except StreamFault (Session α × PutState α) :=
  s.put (p.map some)

/-- The loop of `split_and_put`, to the next put. -/
def splitLoop (s : Session α) (buf : List (Option α)) : Except StreamFault (Session α) :=
  if buf.length < s.stream.size then do
    let dst := if s.stream.buf.isEmpty then allocateBuffer s.stream.size else s.stream.buf
    let dst ← copyTo dst 0 buf
    return { s with stream.buf := dst, stream.endPos := buf.length, writer := none }
  else do
    let chunk := buf.take s.stream.size
    let buf := buf.drop s.stream.size
    let (s, state) ← s.put chunk
    return { s with writer := some (state, .split buf) }

/-- `split_and_put`. -/
def splitAndPut (s : Session α) (buf : List (Option α)) : Except StreamFault (Session α) :=
  if s.stream.endPos = 0 then s.splitLoop buf else .error .assertion

/-- `zero_copy_split_and_put`, to the next put. -/
def zeroCopySplitAndPut (s : Session α) (p : List α) : Except StreamFault (Session α) :=
  if p.length < s.stream.size then
    .ok { s with stream.zcBufs := if p.length ≠ 0 then some p else none, writer := none }
  else do
    let chunk := p.take s.stream.size
    let p := p.drop s.stream.size
    let (s, state) ← s.zeroCopyPut chunk
    return { s with writer := some (state, .zeroCopySplit p) }

/-- A put of a write, followed by `after`. -/
def putThen (s : Session α) (chunk : List (Option α)) (after : After α) :
    Except StreamFault (Session α) := do
  let (s, state) ← s.put chunk
  return { s with writer := some (state, after) }

/-- The end of a bulk write. -/
def bulkPut (s : Session α) (tmp : List (Option α)) : Except StreamFault (Session α) :=
  if s.stream.trimToSize then s.splitAndPut tmp else s.putThen tmp .done

/-- `write(buf, n)`. -/
def write (s : Session α) (data : List (Option α)) : Except StreamFault (Session α) := do
  if s.stream.zcBufs.isSome then throw .assertion
  let n := data.length
  let size := s.stream.size
  let endPos := s.stream.endPos
  let bulkThreshold := if endPos ≠ 0 then 2 * size - endPos else size
  if n ≥ bulkThreshold then
    if endPos ≠ 0 then
      -- The buffer is filled up and put, and the rest goes on as a bulk write.
      let now := size - endPos
      let buf ← copyTo s.stream.buf endPos (data.take now)
      let tmp ← copyTo (allocateBuffer (n - now)) 0 (data.drop now)
      { s with stream.buf := [], stream.endPos := 0 }.putThen (buf.take size) (.bulk tmp)
    else
      -- With an empty buffer the bytes go past it in one piece.
      let tmp ← copyTo (allocateBuffer n) 0 data
      s.bulkPut tmp
  else
    let buf := if s.stream.buf.isEmpty then allocateBuffer size else s.stream.buf
    let now := min n (size - endPos)
    let buf ← copyTo buf endPos (data.take now)
    if now = n then
      return { s with stream.buf := buf, stream.endPos := endPos + now }
    else
      -- The bytes overflow the buffer: it is put full, and the next one takes the rest.
      let next ← copyTo (allocateBuffer size) 0 (data.drop now)
      { s with stream.buf := next, stream.endPos := n - now }.putThen buf .done

/-- `write(packet)`. -/
def writePacket (s : Session α) (p : List α) : Except StreamFault (Session α) :=
  if p.length ≠ 0 then
    if s.stream.endPos = 0 then
      let zcBufs := s.stream.appended p
      if zcBufs.length ≥ s.stream.size then
        let s := { s with stream.zcBufs := none }
        if s.stream.trimToSize then s.zeroCopySplitAndPut zcBufs
        else do
          let (s, state) ← s.zeroCopyPut zcBufs
          return { s with writer := some (state, .done) }
      else .ok { s with stream.zcBufs := some zcBufs }
    else .error .assertion
  else .ok s

/-- `write(temporary_buffer)`. -/
def writeBuffer (s : Session α) (p : List α) : Except StreamFault (Session α) :=
  if p.length = 0 then .ok s
  else if s.stream.endPos = 0 then s.writePacket p
  else .error .assertion

/-- `flush`. -/
def flush (s : Session α) : Except StreamFault (Session α) :=
  if !s.stream.batchFlushes then
    -- without batching the source puts at once
    if s.stream.endPos ≠ 0 then do
      let chunk := s.stream.buf.take s.stream.endPos
      let (s, state) ← { s with stream.buf := [], stream.endPos := 0 }.put chunk
      return { s with flushes := s.flushes ++ [.put state] }
    else
      match s.stream.zcBufs with
      | some p => do
        let (s, state) ← { s with stream.zcBufs := none }.zeroCopyPut p
        return { s with flushes := s.flushes ++ [.put state] }
      | none => .ok { s with flushed := true }
  -- An error of an earlier flush is reported here.
  else if s.stream.ex then .ok { s with stream.ex := false }
  else
    let s := { s with stream.flush := true }
    if s.stream.inBatch.isNone then .ok { s with stream.inBatch := some false, poller := .queued }
    else .ok s

/-- `poll_flush`, to the next operation on the sink. -/
def pollFlush (s : Session α) : Except StreamFault (Session α) :=
  if !s.stream.flush then
    -- The flush was cancelled, and `_in_batch.value()` throws without a value.
    if s.stream.inBatch.isNone then .error .noValue
    else .ok { s with
      stream.flushing := false
      stream.inBatch := none
      writer := s.writer.map fun (state, after) => (state.wake, after)
      flushes := s.flushes.map FlushState.wake
      poller := .idle }
  else
    -- One flush of the batch: what is buffered is put, then the sink is flushed.
    let s := { s with stream.flush := false, stream.flushing := true }
    if s.stream.endPos ≠ 0 then
      let chunk := s.stream.buf.take s.stream.endPos
      .ok { { s with stream.buf := [], stream.endPos := 0 }.fdPut chunk with poller := .putting }
    else
      match s.stream.zcBufs with
      | some p => .ok { { s with stream.zcBufs := none }.fdPut (p.map some) with poller := .putting }
      | none => .ok { s with poller := .flushing }

/-- A put in progress ends. -/
def putDone (s : Session α) : Session α := { s with inProgress := s.inProgress - 1 }

/-- What a write does when its put is done. -/
def continueWrite (s : Session α) : After α → Except StreamFault (Session α)
  | .done => .ok { s with writer := none }
  | .bulk tmp => s.bulkPut tmp
  | .split buf => s.splitLoop buf
  | .zeroCopySplit p => s.zeroCopySplitAndPut p

/-- One event, when it can happen. A write and a flush are started when the previous write is
complete, and all writes are of one kind. -/
def perform (s : Session α) : Event α → Option (Except StreamFault (Session α))
  | .write data =>
    if s.writer.isSome || s.zeroCopy then none
    else some ({ s with written := s.written ++ data }.write (data.map some))
  | .writePacket p =>
    if s.writer.isSome || !s.zeroCopy then none
    else some ({ s with written := s.written ++ p }.writePacket p)
  | .writeBuffer p =>
    if s.writer.isSome || !s.zeroCopy then none
    else some ({ s with written := s.written ++ p }.writeBuffer p)
  | .flush => if s.writer.isSome then none else some s.flush
  | .poll => if s.poller = .queued then some s.pollFlush else none
  | .resume =>
    match s.writer with
    | some (.resumed chunk, after) =>
      some (.ok { s.fdPut chunk with writer := some (.putting, after) })
    | _ => none
  | .finishPut ok =>
    match s.writer with
    | some (.putting, after) =>
      some (if ok then s.putDone.continueWrite after else .ok { s.putDone with writer := none })
    | _ => none
  | .resumeFlush i =>
    match s.flushes[i]? with
    | some (.put (.resumed chunk)) =>
      some (.ok { s.fdPut chunk with flushes := s.flushes.set i (.put .putting) })
    | _ => none
  | .finishFlushPut i ok =>
    match s.flushes[i]? with
    | some (.put .putting) =>
      some (.ok { s.putDone with
        flushes := if ok then s.flushes.set i .sink else s.flushes.eraseIdx i })
    | _ => none
  | .finishFlush i ok =>
    match s.flushes[i]? with
    | some .sink => some (.ok { s with flushes := s.flushes.eraseIdx i, flushed := ok })
    | _ => none
  | .finishPollPut ok =>
    if s.poller = .putting then
      some (if ok then .ok { s.putDone with poller := .flushing }
        else { s.putDone with stream.ex := true }.pollFlush)
    else none
  | .finishPollFlush ok =>
    if s.poller = .flushing then
      some ({ s with stream.ex := s.stream.ex || !ok }.pollFlush)
    else none

/-- One event. -/
def step (s : Session α) (e : Event α) : Option (Session α) :=
  if s.fault.isSome then none
  else
    match { s with flushed := false }.perform e with
    | none => none
    | some (.ok t) => some t
    | some (.error f) => some { s with fault := some f }

end Session

end OutputStream

end Netstar.Spec.Core
