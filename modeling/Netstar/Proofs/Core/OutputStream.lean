import Netstar.Lib.Result
import Netstar.Spec.Core.OutputStream

/-!
# `Netstar.Proofs.Core.OutputStream`: what is written reaches the sink in order

The bytes written so far are, in this order, those in the sink, those that the write in progress
still holds, and those in the buffer. `Control` lists who can be at the sink. The writer clears
`_flush` before it goes to the sink, so `poll_flush` finds nothing to do while the writer is there,
and the writer waits for the promise while `poll_flush` is there.
-/

set_option autoImplicit false

namespace Netstar.Proofs.Core.OutputStream

open Netstar.Lib
open Netstar.Spec.Core
open Netstar.Spec.Core.OutputStream

variable {α : Type} {s t : Session α}

/-! ### Buffers -/

/-- A copy inside the buffer. -/
theorem copyTo_eq {buf src : List (Option α)} {pos : Nat} (h : pos + src.length ≤ buf.length) :
    copyTo buf pos src = .ok (buf.take pos ++ src ++ buf.drop (pos + src.length)) := if_pos h

/-- A copy that fills a new buffer. -/
theorem copyTo_new (src : List (Option α)) :
    copyTo (allocateBuffer src.length) 0 src = .ok src := by
  rw [copyTo_eq (by simp [allocateBuffer])]
  simp [allocateBuffer]

/-- A copy to the end of a buffer. -/
theorem copyTo_end {buf src : List (Option α)} {pos : Nat} (h : pos + src.length = buf.length) :
    copyTo buf pos src = .ok (buf.take pos ++ src) := by
  rw [copyTo_eq (by omega), h, List.drop_length, List.append_nil]

/-- The stream's own data: the buffer has room for `_size` bytes, and the writes are of one kind. -/
structure Buffers (zeroCopy : Bool) (st : OutputStream α) : Prop where
  size_pos : 0 < st.size
  end_le : st.endPos ≤ st.size
  buf : st.buf = [] ∧ st.endPos = 0 ∨ st.buf.length = st.size
  onlyPackets : zeroCopy = true → st.endPos = 0
  onlyBytes : zeroCopy = false → st.zcBufs = none
  packets : ∀ p, st.zcBufs = some p → p ≠ [] ∧ p.length < st.size

/-- A chunk for the sink. -/
def ChunkOk (st : OutputStream α) (chunk : List (Option α)) : Prop :=
  chunk ≠ [] ∧ (st.trimToSize = true → chunk.length ≤ st.size)

section Buffers

variable {zeroCopy : Bool} {st : OutputStream α}

/-- Nothing is buffered without bytes and packets. -/
theorem buffered_of_end_zero (hend : st.endPos = 0) (hzc : st.zcBufs = none) : st.buffered = [] := by
  simp [OutputStream.buffered, hend, hzc]

/-- Without packets the bytes of the buffer are buffered. -/
theorem buffered_bytes (hzc : st.zcBufs = none) : st.buffered = st.buf.take st.endPos := by
  simp [OutputStream.buffered, hzc]

/-- Without bytes the packets are buffered. -/
theorem buffered_packets (hend : st.endPos = 0) : st.buffered = (st.zcBufs.getD []).map some := by
  simp [OutputStream.buffered, hend]

/-- A packet comes after those that are there. -/
theorem appended_eq (st : OutputStream α) (p : List α) : st.appended p = st.zcBufs.getD [] ++ p := by
  rw [OutputStream.appended]
  cases st.zcBufs with
  | none => rfl
  | some zcBufs => rfl

/-- The buffer to which a write copies. -/
theorem Buffers.current (h : Buffers zeroCopy st) :
    (if st.buf.isEmpty then allocateBuffer st.size else st.buf).length = st.size ∧
      (if st.buf.isEmpty then allocateBuffer st.size else st.buf).take st.endPos =
        st.buf.take st.endPos := by
  rcases h.buf with ⟨hnil, hend⟩ | hlen
  · rw [hnil, if_pos List.isEmpty_nil, hend]
    exact ⟨List.length_replicate .., by simp⟩
  · have hne : ¬ st.buf.isEmpty = true := by
      rw [List.isEmpty_iff, ← List.length_eq_zero_iff]
      have hpos := h.size_pos
      omega
    rw [if_neg hne]
    exact ⟨hlen, rfl⟩

/-- A buffer with `_end != 0` exists. -/
theorem Buffers.length_buf (h : Buffers zeroCopy st) (hend : st.endPos ≠ 0) :
    st.buf.length = st.size :=
  h.buf.resolve_left fun hnil => hend hnil.2

/-- What a flush puts is a chunk for the sink. -/
theorem Buffers.chunk_buf (h : Buffers zeroCopy st) (hend : st.endPos ≠ 0) :
    ChunkOk st (st.buf.take st.endPos) := by
  have hlen := h.length_buf hend
  have hle := h.end_le
  have htake : (st.buf.take st.endPos).length = st.endPos := by
    rw [List.length_take]
    omega
  refine ⟨fun hnil => ?_, fun _ => by omega⟩
  rw [hnil] at htake
  exact hend htake.symm

/-- The collected packets make a chunk. -/
theorem Buffers.chunk_packet (h : Buffers zeroCopy st) {p : List α} (hp : st.zcBufs = some p) :
    ChunkOk st (p.map some) := by
  obtain ⟨hne, hlen⟩ := h.packets p hp
  refine ⟨by simpa using hne, fun _ => ?_⟩
  rw [List.length_map]
  omega

/-- The stream when the buffer is moved to the sink. -/
theorem Buffers.taken (h : Buffers zeroCopy st) :
    Buffers zeroCopy { st with buf := [], endPos := 0 } :=
  ⟨h.size_pos, Nat.zero_le _, .inl ⟨rfl, rfl⟩, fun _ => rfl, h.onlyBytes, h.packets⟩

/-- The stream when the packet is moved to the sink. -/
theorem Buffers.takenPacket (h : Buffers zeroCopy st) : Buffers zeroCopy { st with zcBufs := none } :=
  ⟨h.size_pos, h.end_le, h.buf, h.onlyPackets, fun _ => rfl, (fun _ hp => nomatch hp)⟩

end Buffers

/-! ### The sink -/

/-- What holds whoever is at the sink. -/
structure Base (s : Session α) : Prop where
  noFault : s.fault = none
  notOverlapped : s.overlapped = false
  buffers : Buffers s.zeroCopy s.stream
  chunks : ∀ c ∈ s.chunks, ChunkOk s.stream c
  unbatched : s.stream.batchFlushes = false → s.poller = .idle

/-- The chain of `poll_flush` calls, `_in_batch` with its future not taken, `_flush`, `_flushing` and
the puts in progress. -/
inductive Background : Poller → Option Bool → Bool → Bool → Nat → Prop where
  | idle : Background .idle none false false 0
  | queued (flush : Bool) : Background .queued (some false) flush false 0
  | putting (flush : Bool) : Background .putting (some false) flush true 1
  | flushing (flush : Bool) : Background .flushing (some false) flush true 0

/-- Only the chain of `poll_flush` calls is at the sink. -/
structure Quiet (s : Session α) : Prop where
  flushes : s.flushes = []
  background : Background s.poller s.stream.inBatch s.stream.flush s.stream.flushing s.inProgress

theorem Quiet.inProgress (h : Quiet s) (hflushing : s.stream.flushing = false) : s.inProgress = 0 := by
  have hbg := h.background
  rw [hflushing] at hbg
  generalize s.poller = p, s.stream.inBatch = b, s.stream.flush = f, s.inProgress = n at hbg ⊢
  cases hbg
  · rfl
  · rfl

/-- Who is at the sink. -/
inductive Control (s : Session α) : Prop where
  | quiet (writer : s.writer = none) (quiet : Quiet s)
  | putting (after : After α) (writer : s.writer = some (.putting, after)) (quiet : Quiet s.putDone)
      (inProgress : s.inProgress = 1) (flush : s.stream.flush = false)
      (flushing : s.stream.flushing = false)
  | waiting (chunk : List (Option α)) (after : After α) (writer : s.writer = some (.waiting chunk, after))
      (flushes : s.flushes = []) (background : Background s.poller (some false) false true s.inProgress)
      (flush : s.stream.flush = false) (flushing : s.stream.flushing = true)
      (inBatch : s.stream.inBatch = some true)
  | resumed (chunk : List (Option α)) (after : After α) (writer : s.writer = some (.resumed chunk, after))
      (quiet : Quiet s) (flush : s.stream.flush = false) (flushing : s.stream.flushing = false)
  | flush (state : FlushState α) (writer : s.writer = none) (flushes : s.flushes = [state])
      (quiet : Quiet { s with flushes := [], inProgress := 0 })
      (batch : s.stream.batchFlushes = false) (buffered : s.stream.buffered = [])
      (putting : state = .put .putting ∧ s.inProgress = 1 ∨ state = .sink ∧ s.inProgress = 0)

/-- What is left of a write fits the state of the stream. -/
def AfterOk (s : Session α) : After α → Prop
  | .done => True
  | .bulk tmp => s.zeroCopy = false ∧ s.stream.endPos = 0 ∧ s.stream.size ≤ tmp.length
  | .split _ => s.zeroCopy = false ∧ s.stream.endPos = 0 ∧ s.stream.trimToSize = true
  | .zeroCopySplit _ => s.zeroCopy = true ∧ s.stream.zcBufs = none ∧ s.stream.trimToSize = true

/-- The invariant of a session. -/
structure Inv (s : Session α) : Prop where
  base : Base s
  control : Control s
  order : s.chunks.flatten ++ (s.inFlight ++ s.stream.buffered) = s.written.map some
  held : ∀ state after, s.writer = some (state, after) → AfterOk s after ∧
    ∀ c, state = .waiting c ∨ state = .resumed c → ChunkOk s.stream c
  flushed : s.flushed = true → s.stream.buffered = []

/-- A chunk is given to the sink, which has none in progress. -/
theorem Base.fdPut (h : Base s) (hidle : s.inProgress = 0) {chunk : List (Option α)}
    (hchunk : ChunkOk s.stream chunk) : Base (s.fdPut chunk) := by
  refine ⟨h.noFault, ?_, h.buffers, fun c hc => ?_, h.unbatched⟩
  · show (s.overlapped || s.inProgress != 0) = false
    rw [h.notOverlapped, hidle]
    rfl
  · rcases List.mem_append.mp hc with hc | hc
    · exact h.chunks c hc
    · obtain rfl := List.mem_singleton.mp hc
      exact hchunk

/-- A put starts, or waits for the batched flush. -/
theorem put_cases (hq : Quiet s) (chunk : List (Option α)) :
    s.stream.flushing = false ∧
        s.put chunk = .ok ({ s with stream.flush := false }.fdPut chunk, .putting) ∨
      s.stream.flushing = true ∧ Background s.poller (some false) false true s.inProgress ∧
        s.put chunk = .ok ({ s with stream.flush := false, stream.inBatch := some true },
          .waiting chunk) := by
  have hbg := hq.background
  cases hflushing : s.stream.flushing with
  | false =>
    left
    refine ⟨rfl, ?_⟩
    rw [Session.put]
    exact if_neg (by simp [hflushing])
  | true =>
    right
    rw [hflushing] at hbg
    have hinBatch : s.stream.inBatch = some false ∧
        Background s.poller (some false) false true s.inProgress := by
      generalize s.poller = p, s.stream.inBatch = b, s.stream.flush = f, s.inProgress = n at hbg ⊢
      cases hbg
      · exact ⟨rfl, .putting false⟩
      · exact ⟨rfl, .flushing false⟩
    refine ⟨rfl, hinBatch.2, ?_⟩
    rw [Session.put]
    simp only [hflushing, hinBatch.1, if_true]

/-- `_flush` is cleared before a put. -/
theorem Quiet.clearFlush (h : Quiet s) : Quiet { s with stream.flush := false } := by
  refine ⟨h.flushes, ?_⟩
  have hbg := h.background
  show Background s.poller s.stream.inBatch false s.stream.flushing s.inProgress
  generalize s.poller = p, s.stream.inBatch = b, s.stream.flush = f, s.stream.flushing = g,
    s.inProgress = n at hbg ⊢
  cases hbg
  · exact .idle
  · exact .queued false
  · exact .putting false
  · exact .flushing false

/-- The request to flush is apart from the buffers. -/
theorem Base.clearFlush (h : Base s) : Base { s with stream.flush := false } :=
  ⟨h.noFault, h.notOverlapped,
    ⟨h.buffers.size_pos, h.buffers.end_le, h.buffers.buf, h.buffers.onlyPackets, h.buffers.onlyBytes,
      h.buffers.packets⟩, h.chunks, h.unbatched⟩

/-- A put of a write that has nothing else in progress. -/
theorem putThen_spec (h : Base s) (hq : Quiet s) {chunk : List (Option α)} {after : After α}
    (hchunk : ChunkOk s.stream chunk) (hafter : AfterOk s after)
    (horder : s.chunks.flatten ++ (chunk ++ (after.bytes ++ s.stream.buffered)) = s.written.map some)
    (hflushed : s.flushed = false) : ∃ t, s.putThen chunk after = .ok t ∧ Inv t := by
  -- What is left of the write asks nothing of the fields that a put changes.
  have hafter' : ∀ u : Session α, u.zeroCopy = s.zeroCopy → u.stream.endPos = s.stream.endPos →
      u.stream.size = s.stream.size → u.stream.trimToSize = s.stream.trimToSize →
      u.stream.zcBufs = s.stream.zcBufs → AfterOk u after := by
    intro u h₁ h₂ h₃ h₄ h₅
    cases after with
    | done => trivial
    | bulk tmp => rwa [AfterOk, h₁, h₂, h₃]
    | split buf => rwa [AfterOk, h₁, h₂, h₄]
    | zeroCopySplit p => rwa [AfterOk, h₁, h₅, h₄]
  rcases put_cases hq chunk with ⟨hflushing, hput⟩ | ⟨hflushing, hbg, hput⟩
  · -- No flush is due: the chunk is handed to the sink at once.
    have hidle : s.inProgress = 0 := hq.inProgress hflushing
    rw [Session.putThen, hput]
    refine ⟨_, rfl, ?_, .putting after rfl ?_ (congrArg (· + 1) hidle) rfl hflushing, ?_, ?_, ?_⟩
    · have hbase := h.clearFlush.fdPut hidle hchunk
      exact ⟨hbase.noFault, hbase.notOverlapped, hbase.buffers, hbase.chunks, hbase.unbatched⟩
    · have hclear := hq.clearFlush
      exact ⟨hclear.flushes, hclear.background⟩
    · refine Eq.trans ?_ horder
      show (s.chunks ++ [chunk]).flatten ++ (([] ++ after.bytes) ++ s.stream.buffered) = _
      simp
    · intro state after' heq
      cases heq
      exact ⟨hafter' _ rfl rfl rfl rfl rfl, by simp⟩
    · intro htrue
      rw [show s.flushed = true from htrue] at hflushed
      cases hflushed
  · -- The flush of the background goes first, and the chunk waits for it.
    rw [Session.putThen, hput]
    refine ⟨_, rfl, ?_, .waiting chunk after rfl hq.flushes hbg rfl hflushing rfl, ?_, ?_, ?_⟩
    · have hbase := h.clearFlush
      exact ⟨hbase.noFault, hbase.notOverlapped, ⟨hbase.buffers.size_pos, hbase.buffers.end_le,
        hbase.buffers.buf, hbase.buffers.onlyPackets, hbase.buffers.onlyBytes, hbase.buffers.packets⟩,
        hbase.chunks, hbase.unbatched⟩
    · show s.chunks.flatten ++ ((chunk ++ after.bytes) ++ s.stream.buffered) = _
      rw [List.append_assoc]
      exact horder
    · intro state after' heq
      cases heq
      refine ⟨hafter' _ rfl rfl rfl rfl rfl, fun c hc => ?_⟩
      rcases hc with heq | heq
      · cases heq
        exact hchunk
      · cases heq
    · intro htrue
      rw [show s.flushed = true from htrue] at hflushed
      cases hflushed

/-- A write or a flush changes the buffers of the stream. -/
theorem Base.rebuffer (h : Base s) {buf : List (Option α)} {endPos : Nat} {zcBufs : Option (List α)}
    (hst : Buffers s.zeroCopy
      { s.stream with buf := buf, endPos := endPos, zcBufs := zcBufs }) :
    Base { s with stream := { s.stream with buf := buf, endPos := endPos, zcBufs := zcBufs } } :=
  ⟨h.noFault, h.notOverlapped, hst, h.chunks, h.unbatched⟩

/-- The invariant when no write is in progress. -/
theorem inv_of_quiet (h : Base s) (hq : Quiet s) (hwriter : s.writer = none)
    (horder : s.chunks.flatten ++ s.stream.buffered = s.written.map some)
    (hflushed : s.flushed = true → s.stream.buffered = []) : Inv s := by
  refine ⟨h, .quiet hwriter hq, ?_, fun state after heq => ?_, hflushed⟩
  · rw [Session.inFlight, hwriter]
    exact horder
  · rw [hwriter] at heq
    cases heq

/-- A write that ends with bytes in the buffers. -/
theorem inv_ended (h : Base s) (hq : Quiet s) {buf : List (Option α)} {endPos : Nat}
    {zcBufs : Option (List α)} {writer : Option (PutState α × After α)} (hwriter : writer = none)
    (hst : Buffers s.zeroCopy { s.stream with buf := buf, endPos := endPos, zcBufs := zcBufs })
    (horder : s.chunks.flatten ++ (buf.take endPos ++ (zcBufs.getD []).map some) = s.written.map some)
    (hflushed : s.flushed = false) :
    Inv { s with
      stream := { s.stream with buf := buf, endPos := endPos, zcBufs := zcBufs }, writer := writer } := by
  have hbase := h.rebuffer hst
  refine inv_of_quiet ⟨hbase.noFault, hbase.notOverlapped, hbase.buffers, hbase.chunks,
    hbase.unbatched⟩ ⟨hq.flushes, hq.background⟩ hwriter horder fun htrue => ?_
  rw [show s.flushed = true from htrue] at hflushed
  cases hflushed

/-- A put by a write that also changes the buffers. -/
theorem putThen_rebuffer (h : Base s) (hq : Quiet s) {chunk buf : List (Option α)} {endPos : Nat}
    {zcBufs : Option (List α)} {after : After α} (hchunk : ChunkOk s.stream chunk)
    (hst : Buffers s.zeroCopy { s.stream with buf := buf, endPos := endPos, zcBufs := zcBufs })
    (hafter : AfterOk { s with
      stream := { s.stream with buf := buf, endPos := endPos, zcBufs := zcBufs } } after)
    (horder : s.chunks.flatten ++ (chunk ++ (after.bytes ++
      (buf.take endPos ++ (zcBufs.getD []).map some))) = s.written.map some)
    (hflushed : s.flushed = false) :
    ∃ t, { s with stream := { s.stream with
      buf := buf, endPos := endPos, zcBufs := zcBufs } }.putThen chunk after = .ok t ∧ Inv t :=
  putThen_spec (h.rebuffer hst) ⟨hq.flushes, hq.background⟩ hchunk hafter horder hflushed

/-! ### Writes -/

section Writes

variable {data tmp : List (Option α)} {p : List α}

/-- `split_and_put` from one put to the next. -/
theorem splitLoop_spec (h : Base s) (hq : Quiet s) (hkind : s.zeroCopy = false)
    (hend : s.stream.endPos = 0) (htrim : s.stream.trimToSize = true)
    (horder : s.chunks.flatten ++ tmp = s.written.map some) (hflushed : s.flushed = false) :
    ∃ t, s.splitLoop tmp = .ok t ∧ Inv t := by
  have hzc := h.buffers.onlyBytes hkind
  have hempty := buffered_of_end_zero hend hzc
  rw [Session.splitLoop]
  by_cases hlt : tmp.length < s.stream.size
  · obtain ⟨hlen, -⟩ := h.buffers.current
    rw [if_pos hlt]
    dsimp only
    rw [copyTo_eq (by omega)]
    refine ⟨_, rfl, ?_⟩
    refine inv_ended h hq rfl ?_ ?_ hflushed
    · refine ⟨h.buffers.size_pos, Nat.le_of_lt hlt, .inr ?_, fun hpackets => ?_, h.buffers.onlyBytes,
        h.buffers.packets⟩
      · simp only [List.length_append, List.length_take, List.length_drop]
        omega
      · rw [hkind] at hpackets
        cases hpackets
    · rw [← horder, hzc]
      simp
  · have hpos := h.buffers.size_pos
    have hlen : (tmp.take s.stream.size).length = s.stream.size := by
      rw [List.length_take]
      omega
    rw [if_neg hlt]
    refine putThen_spec h hq ⟨?_, fun _ => Nat.le_of_eq hlen⟩ ⟨hkind, hend, htrim⟩ ?_ hflushed
    · intro hnil
      rw [hnil] at hlen
      exact Nat.ne_of_lt hpos hlen
    · rw [← horder, hempty, List.append_nil]
      show _ ++ (tmp.take s.stream.size ++ tmp.drop s.stream.size) = _
      rw [List.take_append_drop]

/-- The end of a bulk write. -/
theorem bulkPut_spec (h : Base s) (hq : Quiet s) (hkind : s.zeroCopy = false)
    (hend : s.stream.endPos = 0) (hlen : s.stream.size ≤ tmp.length)
    (horder : s.chunks.flatten ++ tmp = s.written.map some) (hflushed : s.flushed = false) :
    ∃ t, s.bulkPut tmp = .ok t ∧ Inv t := by
  have hempty := buffered_of_end_zero hend (h.buffers.onlyBytes hkind)
  rw [Session.bulkPut]
  by_cases htrim : s.stream.trimToSize = true
  · rw [if_pos htrim, Session.splitAndPut, if_pos hend]
    exact splitLoop_spec h hq hkind hend htrim horder hflushed
  · rw [if_neg htrim]
    have hpos := h.buffers.size_pos
    refine putThen_spec h hq ⟨?_, fun h' => absurd h' htrim⟩ trivial ?_ hflushed
    · rintro rfl
      rw [List.length_nil] at hlen
      omega
    · rw [hempty]
      simpa [After.bytes] using horder

/-- `zero_copy_split_and_put` from one put to the next. -/
theorem zeroCopySplitAndPut_spec (h : Base s) (hq : Quiet s) (hkind : s.zeroCopy = true)
    (hzc : s.stream.zcBufs = none) (htrim : s.stream.trimToSize = true)
    (horder : s.chunks.flatten ++ p.map some = s.written.map some) (hflushed : s.flushed = false) :
    ∃ t, s.zeroCopySplitAndPut p = .ok t ∧ Inv t := by
  have hend := h.buffers.onlyPackets hkind
  have hempty := buffered_of_end_zero hend hzc
  rw [Session.zeroCopySplitAndPut]
  by_cases hlt : p.length < s.stream.size
  · rw [if_pos hlt]
    refine ⟨_, rfl, ?_⟩
    refine inv_ended h hq rfl ?_ ?_ hflushed
    · refine ⟨h.buffers.size_pos, h.buffers.end_le, h.buffers.buf, h.buffers.onlyPackets,
        fun hbytes => ?_, fun q hq => ?_⟩
      · rw [hkind] at hbytes
        cases hbytes
      · have hq : (if p.length ≠ 0 then some p else none) = some q := hq
        split at hq
        · rename_i hne
          cases hq
          exact ⟨fun hnil => hne (by rw [hnil]; rfl), hlt⟩
        · cases hq
    · rw [← horder, hend, List.take_zero, List.nil_append]
      split
      · rfl
      · rename_i hzero
        have hnil : p = [] := by simpa using hzero
        rw [hnil]
        rfl
  · have hpos := h.buffers.size_pos
    have hlen : ((p.take s.stream.size).map (some : α → Option α)).length = s.stream.size := by
      rw [List.length_map, List.length_take]
      omega
    rw [if_neg hlt]
    refine putThen_spec h hq ⟨?_, fun _ => Nat.le_of_eq hlen⟩ ⟨hkind, hzc, htrim⟩ ?_ hflushed
    · intro hnil
      rw [hnil] at hlen
      exact Nat.ne_of_lt hpos hlen
    · rw [← horder, hempty, List.append_nil]
      show _ ++ ((p.take s.stream.size).map some ++ (p.drop s.stream.size).map some) = _
      rw [← List.map_append, List.take_append_drop]

/-- A write with bytes in the buffer that goes to the sink in two puts. -/
theorem write_bulk (h : Base s) (hq : Quiet s) (hkind : s.zeroCopy = false)
    (hend : s.stream.endPos ≠ 0) (hn : 2 * s.stream.size - s.stream.endPos ≤ data.length)
    (horder : s.chunks.flatten ++ (s.stream.buffered ++ data) = s.written.map some)
    (hflushed : s.flushed = false) : ∃ t, s.write data = .ok t ∧ Inv t := by
  have hzc := h.buffers.onlyBytes hkind
  have hle := h.buffers.end_le
  have hpos := h.buffers.size_pos
  have hbuf := h.buffers.length_buf hend
  have hnow : (data.take (s.stream.size - s.stream.endPos)).length =
      s.stream.size - s.stream.endPos := by
    rw [List.length_take]
    omega
  have hrest : (data.drop (s.stream.size - s.stream.endPos)).length =
      data.length - (s.stream.size - s.stream.endPos) := List.length_drop ..
  rw [buffered_bytes hzc] at horder
  rw [Session.write, if_neg (by simp [hzc])]
  dsimp only
  rw [if_pos hend, if_pos hn, if_pos hend, copyTo_end (by omega), ok_bind, ← hrest, copyTo_new, ok_bind]
  have hchunk : (s.stream.buf.take s.stream.endPos ++
      data.take (s.stream.size - s.stream.endPos)).length = s.stream.size := by
    rw [List.length_append, hnow, List.length_take]
    omega
  rw [List.take_of_length_le (Nat.le_of_eq hchunk)]
  refine putThen_rebuffer h hq ⟨?_, fun _ => Nat.le_of_eq hchunk⟩ h.buffers.taken ⟨hkind, rfl, ?_⟩ ?_
    hflushed
  · intro hnil
    rw [hnil] at hchunk
    exact Nat.ne_of_lt hpos hchunk
  · show s.stream.size ≤ _
    omega
  · rw [← horder, hzc]
    simp [After.bytes, List.take_append_drop]

/-- A write that the buffer takes as a whole. -/
theorem write_small (h : Base s) (hq : Quiet s) (hkind : s.zeroCopy = false) (hwriter : s.writer = none)
    (hn : data.length < if s.stream.endPos ≠ 0 then 2 * s.stream.size - s.stream.endPos else s.stream.size)
    (hfits : data.length ≤ s.stream.size - s.stream.endPos)
    (horder : s.chunks.flatten ++ (s.stream.buffered ++ data) = s.written.map some)
    (hflushed : s.flushed = false) : ∃ t, s.write data = .ok t ∧ Inv t := by
  have hzc := h.buffers.onlyBytes hkind
  have hle := h.buffers.end_le
  obtain ⟨hlen, htake⟩ := h.buffers.current
  rw [buffered_bytes hzc] at horder
  rw [Session.write, if_neg (by simp [hzc])]
  dsimp only
  rw [if_neg (Nat.not_le.mpr hn), Nat.min_eq_left hfits, List.take_length, copyTo_eq (by omega), ok_bind,
    if_pos rfl, htake]
  refine ⟨_, rfl, ?_⟩
  refine inv_ended h hq hwriter ?_ ?_ hflushed
  · refine ⟨h.buffers.size_pos, ?_, .inr ?_, fun hpackets => ?_, h.buffers.onlyBytes, h.buffers.packets⟩
    · show s.stream.endPos + data.length ≤ s.stream.size
      omega
    · have hlen' := congrArg List.length htake
      simp only [List.length_append, List.length_take, List.length_drop] at hlen' ⊢
      omega
    · rw [hkind] at hpackets
      cases hpackets
  · have hcount : (s.stream.buf.take s.stream.endPos ++ data).length = s.stream.endPos + data.length := by
      have hlen' := congrArg List.length htake
      rw [List.length_take] at hlen'
      rw [List.length_append, ← hlen']
      omega
    rw [hzc, ← horder, List.take_left' hcount]
    simp

/-- A write that fills the buffer and leaves less than `_size` bytes for the next one. -/
theorem write_overflow (h : Base s) (hq : Quiet s) (hkind : s.zeroCopy = false)
    (hn : data.length < if s.stream.endPos ≠ 0 then 2 * s.stream.size - s.stream.endPos else s.stream.size)
    (hover : s.stream.size - s.stream.endPos < data.length)
    (horder : s.chunks.flatten ++ (s.stream.buffered ++ data) = s.written.map some)
    (hflushed : s.flushed = false) : ∃ t, s.write data = .ok t ∧ Inv t := by
  have hzc := h.buffers.onlyBytes hkind
  have hle := h.buffers.end_le
  have hpos := h.buffers.size_pos
  -- With an empty buffer so long a write would have gone past it in one piece.
  have hend : s.stream.endPos ≠ 0 := by
    intro hend
    rw [hend] at hn hover
    simp only [ne_eq, not_true_eq_false, if_false] at hn
    omega
  obtain ⟨hlen, htake⟩ := h.buffers.current
  have hnow : (data.take (s.stream.size - s.stream.endPos)).length =
      s.stream.size - s.stream.endPos := by
    rw [List.length_take]
    omega
  have hrest : (data.drop (s.stream.size - s.stream.endPos)).length =
      data.length - (s.stream.size - s.stream.endPos) := List.length_drop ..
  rw [buffered_bytes hzc] at horder
  have hn' := hn
  rw [if_pos hend] at hn'
  rw [Session.write, if_neg (by simp [hzc])]
  dsimp only
  rw [if_neg (Nat.not_le.mpr hn), Nat.min_eq_right (Nat.le_of_lt hover), copyTo_end (by omega), ok_bind,
    if_neg (Nat.ne_of_lt hover), htake,
    copyTo_eq (by rw [hrest, allocateBuffer, List.length_replicate]; omega), ok_bind]
  -- The buffer is filled to `_size` before it is put.
  have hchunk : (s.stream.buf.take s.stream.endPos ++
      data.take (s.stream.size - s.stream.endPos)).length = s.stream.size := by
    have hlen' := congrArg List.length htake
    rw [List.length_take] at hlen'
    rw [List.length_append, hnow, ← hlen']
    omega
  refine putThen_rebuffer h hq ⟨?_, fun _ => Nat.le_of_eq hchunk⟩ ?_ trivial ?_ hflushed
  · intro hnil
    rw [hnil] at hchunk
    exact Nat.ne_of_lt hpos hchunk
  · refine ⟨h.buffers.size_pos, ?_, .inr ?_, fun hpackets => ?_, h.buffers.onlyBytes, h.buffers.packets⟩
    · show data.length - (s.stream.size - s.stream.endPos) ≤ s.stream.size
      omega
    · simp only [allocateBuffer, List.length_append, List.length_take, List.length_drop,
        List.length_replicate]
      omega
    · rw [hkind] at hpackets
      cases hpackets
  · rw [← horder, hzc, List.take_zero, List.nil_append, List.take_left' hrest]
    simp [After.bytes, List.take_append_drop]

/-- `write`. -/
theorem write_spec (h : Base s) (hq : Quiet s) (hkind : s.zeroCopy = false) (hwriter : s.writer = none)
    (horder : s.chunks.flatten ++ (s.stream.buffered ++ data) = s.written.map some)
    (hflushed : s.flushed = false) : ∃ t, s.write data = .ok t ∧ Inv t := by
  by_cases hn : data.length <
      if s.stream.endPos ≠ 0 then 2 * s.stream.size - s.stream.endPos else s.stream.size
  · by_cases hfits : data.length ≤ s.stream.size - s.stream.endPos
    · exact write_small h hq hkind hwriter hn hfits horder hflushed
    · exact write_overflow h hq hkind hn (Nat.not_le.mp hfits) horder hflushed
  · have hzc := h.buffers.onlyBytes hkind
    by_cases hend : s.stream.endPos = 0
    · have hnot : ¬ s.stream.endPos ≠ 0 := fun hne => hne hend
      rw [if_neg hnot] at hn
      rw [buffered_of_end_zero hend hzc, List.nil_append] at horder
      rw [Session.write, if_neg (by simp [hzc])]
      dsimp only
      rw [if_neg hnot, if_pos (Nat.not_lt.mp hn), if_neg hnot, copyTo_new, ok_bind]
      exact bulkPut_spec h hq hkind hend (Nat.not_lt.mp hn) horder hflushed
    · rw [if_pos hend] at hn
      exact write_bulk h hq hkind hend (Nat.not_lt.mp hn) horder hflushed

/-- `write` of a packet. -/
theorem writePacket_spec (h : Base s) (hq : Quiet s) (hkind : s.zeroCopy = true)
    (hwriter : s.writer = none)
    (horder : s.chunks.flatten ++ (s.stream.buffered ++ p.map some) = s.written.map some)
    (hflushed : s.flushed = false) : ∃ t, s.writePacket p = .ok t ∧ Inv t := by
  have hend := h.buffers.onlyPackets hkind
  rw [buffered_packets hend] at horder
  rw [Session.writePacket]
  by_cases hlen : p.length = 0
  · have hnil : p = [] := List.length_eq_zero_iff.mp hlen
    rw [if_neg (fun hne => hne hlen)]
    refine ⟨s, rfl, inv_of_quiet h hq hwriter ?_ fun htrue => ?_⟩
    · rw [buffered_packets hend, ← horder, hnil]
      simp
    · rw [hflushed] at htrue
      cases htrue
  · rw [← List.map_append] at horder
    rw [if_pos hlen, if_pos hend]
    dsimp only
    rw [appended_eq]
    generalize hz : s.stream.zcBufs.getD [] ++ p = z at horder
    -- `_zc_bufs` never holds the empty packet.
    have hzne : z ≠ [] := by
      rintro rfl
      exact hlen (by rw [(List.append_eq_nil_iff.mp hz).2]; rfl)
    by_cases hfull : z.length ≥ s.stream.size
    · rw [if_pos hfull]
      by_cases htrim : s.stream.trimToSize = true
      · rw [if_pos htrim]
        exact zeroCopySplitAndPut_spec (h.rebuffer h.buffers.takenPacket) ⟨hq.flushes, hq.background⟩
          hkind rfl htrim horder hflushed
      · rw [if_neg htrim]
        refine putThen_rebuffer h hq ⟨by simpa using hzne, fun h' => absurd h' htrim⟩
          h.buffers.takenPacket trivial ?_ hflushed
        rw [← horder, hend]
        simp [After.bytes]
    · rw [if_neg hfull]
      refine ⟨_, rfl, ?_⟩
      refine inv_ended h hq hwriter ?_ ?_ hflushed
      · refine ⟨h.buffers.size_pos, h.buffers.end_le, h.buffers.buf, h.buffers.onlyPackets,
          fun hbytes => ?_, fun q hq => ?_⟩
        · rw [hkind] at hbytes
          cases hbytes
        · cases hq
          exact ⟨hzne, Nat.not_le.mp hfull⟩
      · rw [← horder, hend]
        simp

end Writes

/-! ### Flushes -/

/-- A stream with bytes in its buffer has no packets. -/
theorem Base.noPackets (h : Base s) (hend : s.stream.endPos ≠ 0) : s.stream.zcBufs = none := by
  cases hkind : s.zeroCopy with
  | false => exact h.buffers.onlyBytes hkind
  | true => exact absurd (h.buffers.onlyPackets hkind) hend

/-- Without a call in progress nothing is on its way. -/
theorem Inv.quiet (h : Inv s) (hwriter : s.writer = none) (hflushes : s.flushes = []) : Quiet s := by
  cases h.control with
  | quiet _ hq => exact hq
  | putting after hw => rw [hwriter] at hw; cases hw
  | waiting chunk after hw => rw [hwriter] at hw; cases hw
  | resumed chunk after hw => rw [hwriter] at hw; cases hw
  | flush state _ hf => rw [hflushes] at hf; cases hf

/-- Without a call in progress, what was written is at the sink or in the buffer, in order. -/
theorem Inv.order_idle (h : Inv s) (hwriter : s.writer = none) :
    s.chunks.flatten ++ s.stream.buffered = s.written.map some := by
  have horder := h.order
  rwa [Session.inFlight, hwriter] at horder

/-- The stream is not batched, so the put of a flush does not wait. -/
theorem Quiet.unbatched (hq : Quiet s) (hidle : s.poller = .idle) :
    s.stream.inBatch = none ∧ s.stream.flush = false ∧ s.stream.flushing = false ∧ s.inProgress = 0 := by
  have hbg := hq.background
  rw [hidle] at hbg
  generalize s.stream.inBatch = b, s.stream.flush = f, s.stream.flushing = g, s.inProgress = n at hbg ⊢
  cases hbg
  exact ⟨rfl, rfl, rfl, rfl⟩

/-- The put of an unbatched flush. -/
theorem flush_put (h : Base s) (hq : Quiet s) (hwriter : s.writer = none)
    (hbatch : s.stream.batchFlushes = false) {chunk : List (Option α)} (hchunk : ChunkOk s.stream chunk)
    (hempty : s.stream.buffered = []) (horder : s.chunks.flatten ++ chunk = s.written.map some) :
    ∃ t state, s.put chunk = .ok (t, state) ∧
      Inv { t with flushes := t.flushes ++ [.put state] } := by
  have hidle := h.unbatched hbatch
  obtain ⟨hinBatch, hflush, hflushing, hprogress⟩ := hq.unbatched hidle
  rcases put_cases hq chunk with ⟨-, hput⟩ | ⟨htrue, -⟩
  · refine ⟨_, _, hput, ?_, .flush _ hwriter (congrArg (· ++ _) hq.flushes) ?_ hbatch hempty
      (.inl ⟨rfl, congrArg (· + 1) hprogress⟩), ?_, ?_, fun _ => hempty⟩
    · have hbase := h.clearFlush.fdPut hprogress hchunk
      exact ⟨hbase.noFault, hbase.notOverlapped, hbase.buffers, hbase.chunks, hbase.unbatched⟩
    · refine ⟨rfl, ?_⟩
      show Background s.poller s.stream.inBatch false s.stream.flushing 0
      rw [hidle, hinBatch, hflushing]
      exact .idle
    · refine Eq.trans ?_ horder
      show (s.chunks ++ [chunk]).flatten ++ (s.inFlight ++ s.stream.buffered) = _
      rw [Session.inFlight, hwriter, hempty]
      simp
    · intro state after heq
      rw [show s.writer = some (state, after) from heq] at hwriter
      cases hwriter
  · rw [hflushing] at htrue
    cases htrue

/-- `flush` of an idle stream. -/
theorem flush_spec (h : Inv s) (hwriter : s.writer = none) (hflushes : s.flushes = [])
    (hflushed : s.flushed = false) : ∃ t, s.flush = .ok t ∧ Inv t := by
  have hq := h.quiet hwriter hflushes
  have horder := h.order_idle hwriter
  rw [Session.flush]
  cases hbatch : s.stream.batchFlushes with
  | false =>
    rw [if_pos (by decide)]
    by_cases hend : s.stream.endPos = 0
    · rw [if_neg (fun hne => hne hend)]
      -- Nothing in the buffer: there may be packets that wait to be sent without a copy.
      cases hzc : s.stream.zcBufs with
      | none =>
        have hempty := buffered_of_end_zero hend hzc
        exact ⟨_, rfl, ⟨h.base.noFault, h.base.notOverlapped, h.base.buffers, h.base.chunks,
          h.base.unbatched⟩, .quiet hwriter ⟨hq.flushes, hq.background⟩, h.order, h.held, fun _ => hempty⟩
      | some p =>
        rw [buffered_packets hend, hzc] at horder
        obtain ⟨t, state, hput, hinv⟩ := flush_put (h.base.rebuffer h.base.buffers.takenPacket)
          ⟨hq.flushes, hq.background⟩ hwriter hbatch (h.base.buffers.chunk_packet hzc)
          (buffered_of_end_zero hend rfl) horder
        refine ⟨_, ?_, hinv⟩
        show (Session.put _ _ >>= _) = _
        rw [hput]
        rfl
    · have hzc := h.base.noPackets hend
      rw [buffered_bytes hzc] at horder
      rw [if_pos hend]
      obtain ⟨t, state, hput, hinv⟩ := flush_put (h.base.rebuffer h.base.buffers.taken)
        ⟨hq.flushes, hq.background⟩ hwriter hbatch (h.base.buffers.chunk_buf hend)
        (buffered_of_end_zero rfl hzc) horder
      refine ⟨_, ?_, hinv⟩
      show (Session.put _ _ >>= _) = _
      rw [hput]
      rfl
  | true =>
    rw [if_neg (by decide)]
    -- With batching, `flush` only sets flags, and no buffer changes.
    have hbase : ∀ (inBatch : Option Bool) (flush ex : Bool) (poller : Poller), Base { s with
        stream := { s.stream with inBatch := inBatch, flush := flush, ex := ex }, poller := poller } := by
      intro inBatch flush ex poller
      refine ⟨h.base.noFault, h.base.notOverlapped, ⟨h.base.buffers.size_pos, h.base.buffers.end_le,
        h.base.buffers.buf, h.base.buffers.onlyPackets, h.base.buffers.onlyBytes, h.base.buffers.packets⟩,
        h.base.chunks, fun hfalse => ?_⟩
      rw [show s.stream.batchFlushes = false from hfalse] at hbatch
      cases hbatch
    have hnot : s.flushed = true → s.stream.buffered = [] := fun htrue => by
      rw [hflushed] at htrue
      cases htrue
    by_cases hex : s.stream.ex = true
    · rw [if_pos hex]
      exact ⟨_, rfl, inv_of_quiet (hbase _ _ false _) ⟨hq.flushes, hq.background⟩ hwriter horder hnot⟩
    · rw [if_neg hex]
      have hbg := hq.background
      by_cases hnone : s.stream.inBatch.isNone = true
      -- A stream that is not in a batch has no background flush, so the poller may take it.
      · have hidle : s.stream.flushing = false ∧ s.inProgress = 0 := by
          generalize s.poller = p, s.stream.inBatch = b, s.stream.flush = f, s.stream.flushing = g,
            s.inProgress = n at hbg hnone ⊢
          cases hbg with
          | idle => exact ⟨rfl, rfl⟩
          | queued f => cases hnone
          | putting f => cases hnone
          | flushing f => cases hnone
        rw [if_pos hnone]
        refine ⟨_, rfl, inv_of_quiet (hbase (some false) true _ .queued) ⟨hq.flushes, ?_⟩ hwriter horder
          hnot⟩
        show Background .queued (some false) true s.stream.flushing s.inProgress
        rw [hidle.1, hidle.2]
        exact .queued true
      · rw [if_neg hnone]
        refine ⟨_, rfl, inv_of_quiet (hbase _ true _ _) ⟨hq.flushes, ?_⟩ hwriter horder hnot⟩
        show Background s.poller s.stream.inBatch true s.stream.flushing s.inProgress
        -- It is in a batch already: the flag is enough, whatever the background flush is doing.
        generalize s.poller = p, s.stream.inBatch = b, s.stream.flush = f, s.stream.flushing = g,
          s.inProgress = n at hbg hnone ⊢
        cases hbg with
        | idle => exact absurd rfl hnone
        | queued f => exact .queued true
        | putting f => exact .putting true
        | flushing f => exact .flushing true

/-! ### The chain of `poll_flush` calls -/

/-- What `poll_flush` leaves alone. -/
theorem Base.polled (h : Base s) (hbatch : s.stream.batchFlushes = true) {inBatch : Option Bool}
    {flush flushing : Bool} {writer : Option (PutState α × After α)} {flushes : List (FlushState α)}
    {poller : Poller} :
    Base { s with
      stream := { s.stream with inBatch := inBatch, flush := flush, flushing := flushing }
      writer := writer
      flushes := flushes
      poller := poller } := by
  refine ⟨h.noFault, h.notOverlapped, ⟨h.buffers.size_pos, h.buffers.end_le, h.buffers.buf,
    h.buffers.onlyPackets, h.buffers.onlyBytes, h.buffers.packets⟩, h.chunks, fun hfalse => ?_⟩
  rw [show s.stream.batchFlushes = false from hfalse] at hbatch
  cases hbatch

/-- Only a stream with batched flushes is polled. -/
theorem Inv.batched (h : Inv s) (hpoller : s.poller = .queued ∨ s.poller = .flushing) :
    s.stream.batchFlushes = true := by
  cases hb : s.stream.batchFlushes with
  | true => rfl
  | false =>
    have hidle := h.base.unbatched hb
    rcases hpoller with hp | hp
    · rw [hp] at hidle
      cases hidle
    · rw [hp] at hidle
      cases hidle

/-- `poll_flush` when the flush was canceled: a write that waits for it goes on. -/
theorem pollFlush_canceled (h : Inv s) (hpoller : s.poller = .queued ∨ s.poller = .flushing)
    (hflush : s.stream.flush = false) : ∃ t, s.pollFlush = .ok t ∧ Inv t := by
  have hbatch : s.stream.batchFlushes = true := h.batched hpoller
  -- In both states of the poller the stream is in a batch, and no put is under way.
  have hbackground : ∀ {b : Option Bool} {f g : Bool} {n : Nat}, Background s.poller b f g n →
      b.isNone = false ∧ n = 0 := by
    intro b f g n hbg
    rcases hpoller with hp | hp
    all_goals
      rw [hp] at hbg
      cases hbg
      exact ⟨rfl, rfl⟩
  have hsome : s.stream.inBatch.isNone = false := by
    cases h.control with
    | quiet _ hq => exact (hbackground hq.background).1
    | putting _ _ hq => exact (hbackground hq.background).1
    | waiting _ _ _ _ _ _ _ hinBatch => rw [hinBatch]; rfl
    | resumed _ _ _ hq => exact (hbackground hq.background).1
    | flush _ _ _ _ hb =>
      rw [hbatch] at hb
      cases hb
  rw [Session.pollFlush, hflush, if_pos (by decide), if_neg (by rw [hsome]; decide)]
  refine ⟨_, rfl, h.base.polled hbatch, ?_, ?_, ?_, h.flushed⟩
  · cases h.control with
    | quiet hw hq =>
      refine .quiet (congrArg (Option.map _) hw) ⟨congrArg (List.map _) hq.flushes, ?_⟩
      show Background .idle none s.stream.flush false s.inProgress
      rw [hflush, (hbackground hq.background).2]
      exact .idle
    | putting after hw hq hprogress _ _ =>
      refine .putting after (congrArg (Option.map _) hw) ⟨congrArg (List.map _) hq.flushes, ?_⟩ hprogress hflush rfl
      show Background .idle none s.stream.flush false (s.inProgress - 1)
      rw [hflush, hprogress]
      exact .idle
    -- The writer that waited for the batch is resumed with its chunk, and the others stay.
    | waiting chunk after hw hflushes hbg _ _ _ =>
      refine .resumed chunk after (congrArg (Option.map _) hw) ⟨congrArg (List.map _) hflushes, ?_⟩ hflush rfl
      show Background .idle none s.stream.flush false s.inProgress
      rw [hflush, (hbackground hbg).2]
      exact .idle
    | resumed chunk after hw hq _ _ =>
      refine .resumed chunk after (congrArg (Option.map _) hw) ⟨congrArg (List.map _) hq.flushes, ?_⟩ hflush rfl
      show Background .idle none s.stream.flush false s.inProgress
      rw [hflush, (hbackground hq.background).2]
      exact .idle
    | flush state hw hf hq hb =>
      rw [hbatch] at hb
      cases hb
  · refine Eq.trans ?_ h.order
    show s.chunks.flatten ++ (_ ++ s.stream.buffered) = s.chunks.flatten ++ (s.inFlight ++ s.stream.buffered)
    congr 2
    simp only [Session.inFlight]
    cases s.writer with
    | none => rfl
    | some w =>
      obtain ⟨state, after⟩ := w
      cases state with
      | waiting chunk => rfl
      | resumed chunk => rfl
      | putting => rfl
  · intro state after heq
    obtain ⟨⟨state', after'⟩, hw, hmap⟩ := Option.map_eq_some_iff.mp heq
    cases hmap
    obtain ⟨hafter, hchunk⟩ := h.held state' after hw
    refine ⟨hafter, fun c hc => hchunk c ?_⟩
    cases state' with
    | waiting chunk => simpa [PutState.wake, eq_comm] using hc
    | resumed chunk => simpa [PutState.wake] using hc
    | putting => simp [PutState.wake] at hc

/-- The poller flushes a stream that waits for it. -/
theorem pollFlush_spec (h : Inv s) (hpoller : s.poller = .queued ∨ s.poller = .flushing)
    (hflushed : s.flushed = false) : ∃ t, s.pollFlush = .ok t ∧ Inv t := by
  cases hflush : s.stream.flush with
  | false => exact pollFlush_canceled h hpoller hflush
  | true =>
    -- A write in progress has cleared `_flush`.
    have hquiet : s.writer = none ∧ Quiet s := by
      cases h.control with
      | quiet hw hq => exact ⟨hw, hq⟩
      | putting _ _ _ _ hf _ => rw [hflush] at hf; cases hf
      | waiting _ _ _ _ _ hf _ _ => rw [hflush] at hf; cases hf
      | resumed _ _ _ _ hf _ => rw [hflush] at hf; cases hf
      | flush _ _ _ _ hb => rw [h.batched hpoller] at hb; cases hb
    obtain ⟨hwriter, hq⟩ := hquiet
    have hbatch : s.stream.batchFlushes = true := h.batched hpoller
    have hbg := hq.background
    have hcontrol : s.stream.inBatch = some false ∧ s.inProgress = 0 := by
      rcases hpoller with hp | hp
      all_goals
        rw [hp] at hbg
        generalize s.stream.inBatch = b, s.stream.flush = f, s.stream.flushing = g,
          s.inProgress = n at hbg ⊢
        cases hbg
        exact ⟨rfl, rfl⟩
    obtain ⟨hinBatch, hprogress⟩ := hcontrol
    have horder := h.order_idle hwriter
    have hnot : ∀ {P : Prop}, s.flushed = true → P := by
      intro P htrue
      rw [hflushed] at htrue
      cases htrue
    rw [Session.pollFlush, hflush, if_neg (by decide)]
    dsimp only
    by_cases hend : s.stream.endPos = 0
    · rw [if_neg (fun hne => hne hend)]
      cases hzc : s.stream.zcBufs with
      | none =>
        have hbase := h.base.rebuffer h.base.buffers.takenPacket
        refine ⟨_, rfl, inv_of_quiet (hbase.polled hbatch) ⟨hq.flushes, ?_⟩ hwriter ?_ hnot⟩
        · show Background .flushing s.stream.inBatch false true s.inProgress
          rw [hinBatch, hprogress]
          exact .flushing false
        · rw [← horder]
          simp only [OutputStream.buffered, hzc]
      | some p =>
        rw [buffered_packets hend, hzc] at horder
        have hbase := (h.base.rebuffer h.base.buffers.takenPacket).fdPut hprogress
          (h.base.buffers.chunk_packet hzc)
        refine ⟨_, rfl, inv_of_quiet (hbase.polled hbatch) ⟨hq.flushes, ?_⟩ hwriter ?_ hnot⟩
        · show Background .putting s.stream.inBatch false true (s.inProgress + 1)
          rw [hinBatch, hprogress]
          exact .putting false
        · refine Eq.trans ?_ horder
          show (s.chunks ++ [p.map some]).flatten ++ (s.stream.buf.take s.stream.endPos ++ []) = _
          rw [hend]
          simp
    · have hzc := h.base.noPackets hend
      rw [buffered_bytes hzc] at horder
      rw [if_pos hend]
      have hbase := (h.base.rebuffer h.base.buffers.taken).fdPut hprogress
        (h.base.buffers.chunk_buf hend)
      refine ⟨_, rfl, inv_of_quiet (hbase.polled hbatch) ⟨hq.flushes, ?_⟩ hwriter ?_ hnot⟩
      · show Background .putting s.stream.inBatch false true (s.inProgress + 1)
        rw [hinBatch, hprogress]
        exact .putting false
      · refine Eq.trans ?_ horder
        show (s.chunks ++ [s.stream.buf.take s.stream.endPos]).flatten ++
          ([] ++ (s.stream.zcBufs.getD []).map some) = _
        rw [hzc]
        simp

/-- The put of `poll_flush` ends. -/
theorem Inv.pollPutDone (h : Inv s) (hpoller : s.poller = .putting) :
    Inv { s.putDone with poller := .flushing } := by
  have hbatch : s.stream.batchFlushes = true := by
    cases hb : s.stream.batchFlushes with
    | true => rfl
    | false =>
      have hidle := h.base.unbatched hb
      rw [hpoller] at hidle
      cases hidle
  have hdone : ∀ {b : Option Bool} {f g : Bool} {n : Nat}, Background s.poller b f g n →
      g = true ∧ Background .flushing b f g (n - 1) := by
    intro b f g n hbg
    rw [hpoller] at hbg
    cases hbg
    exact ⟨rfl, .flushing f⟩
  refine ⟨⟨h.base.noFault, h.base.notOverlapped, h.base.buffers, h.base.chunks, fun hfalse => ?_⟩, ?_,
    h.order, h.held, h.flushed⟩
  · rw [show s.stream.batchFlushes = false from hfalse] at hbatch
    cases hbatch
  · cases h.control with
    | quiet hw hq => exact .quiet hw ⟨hq.flushes, (hdone hq.background).2⟩
    | putting after hw hq _ _ hflushing =>
      rw [show s.stream.flushing = true from (hdone hq.background).1] at hflushing
      cases hflushing
    | waiting chunk after hw hflushes hbg hflush hflushing hinBatch =>
      exact .waiting chunk after hw hflushes (hdone hbg).2 hflush hflushing hinBatch
    | resumed chunk after hw hq _ hflushing =>
      rw [(hdone hq.background).1] at hflushing
      cases hflushing
    | flush _ _ _ _ hb =>
      rw [hbatch] at hb
      cases hb

/-- An error of a batched flush is kept for later, and an event begins. -/
theorem Inv.relabel (h : Inv s) (ex flushed : Bool) (hflushed : flushed = true → s.flushed = true) :
    Inv { s with stream.ex := ex, flushed := flushed } := by
  refine ⟨⟨h.base.noFault, h.base.notOverlapped, ⟨h.base.buffers.size_pos, h.base.buffers.end_le,
    h.base.buffers.buf, h.base.buffers.onlyPackets, h.base.buffers.onlyBytes, h.base.buffers.packets⟩,
    h.base.chunks, h.base.unbatched⟩, ?_, h.order, h.held, fun htrue => h.flushed (hflushed htrue)⟩
  cases h.control with
  | quiet hw hq => exact .quiet hw ⟨hq.flushes, hq.background⟩
  | putting after hw hq hprogress hflush hflushing =>
    exact .putting after hw ⟨hq.flushes, hq.background⟩ hprogress hflush hflushing
  | waiting chunk after hw hflushes hbg hflush hflushing hinBatch =>
    exact .waiting chunk after hw hflushes hbg hflush hflushing hinBatch
  | resumed chunk after hw hq hflush hflushing =>
    exact .resumed chunk after hw ⟨hq.flushes, hq.background⟩ hflush hflushing
  | flush state hw hf hq hb hempty hputting =>
    exact .flush state hw hf ⟨hq.flushes, hq.background⟩ hb hempty hputting

/-! ### Runs -/

/-- A write or a flush is started when the previous unbatched flush is complete, and a put of a write
fails only when the write has nothing left to put. -/
def Awaited (s : Session α) : Event α → Prop
  | .write _ => s.flushes = []
  | .writePacket _ => s.flushes = []
  | .writeBuffer _ => s.flushes = []
  | .flush => s.flushes = []
  | .finishPut false => ∀ state after, s.writer = some (state, after) → after.bytes = []
  | _ => True

/-- What the user of a stream and its sink see. -/
structure Correct (s : Session α) : Prop where
  noFault : s.fault = none
  order : s.chunks.flatten ++ (s.inFlight ++ s.stream.buffered) = s.written.map some
  notOverlapped : s.overlapped = false
  nonempty : ∀ c ∈ s.chunks, c ≠ []
  trimmed : s.stream.trimToSize = true → ∀ c ∈ s.chunks, c.length ≤ s.stream.size
  flushed : s.flushed = true → s.stream.buffered = []

/-- In a state with the invariant the stream is right. -/
theorem Inv.correct (h : Inv s) : Correct s :=
  ⟨h.base.noFault, h.order, h.base.notOverlapped, fun c hc => (h.base.chunks c hc).1,
    fun htrim c hc => (h.base.chunks c hc).2 htrim, h.flushed⟩

/-- A new stream. -/
theorem Inv.create {size : Nat} (hsize : 1 ≤ size) (trimToSize batchFlushes zeroCopy : Bool) :
    Inv (Session.create size trimToSize batchFlushes zeroCopy : Session α) :=
  inv_of_quiet
    ⟨rfl, rfl, ⟨hsize, Nat.zero_le _, .inl ⟨rfl, rfl⟩, fun _ => rfl, fun _ => rfl,
      (fun _ hp => nomatch hp)⟩, (fun _ hc => nomatch hc), fun _ => rfl⟩
    ⟨rfl, .idle⟩ rfl rfl (fun htrue => nomatch htrue)

/-- A write goes on when its put is done. -/
theorem continueWrite_spec (h : Base s) (hq : Quiet s) {after : After α} (hafter : AfterOk s after)
    (horder : s.chunks.flatten ++ (after.bytes ++ s.stream.buffered) = s.written.map some)
    (hflushed : s.flushed = false) : ∃ t, s.continueWrite after = .ok t ∧ Inv t := by
  cases after with
  | done =>
    exact ⟨_, rfl, inv_ended h hq rfl h.buffers horder hflushed⟩
  | bulk tmp =>
    obtain ⟨hkind, hend, hlen⟩ := hafter
    rw [buffered_of_end_zero hend (h.buffers.onlyBytes hkind), List.append_nil] at horder
    exact bulkPut_spec h hq hkind hend hlen horder hflushed
  | split tmp =>
    obtain ⟨hkind, hend, htrim⟩ := hafter
    rw [buffered_of_end_zero hend (h.buffers.onlyBytes hkind), List.append_nil] at horder
    exact splitLoop_spec h hq hkind hend htrim horder hflushed
  | zeroCopySplit p =>
    obtain ⟨hkind, hzc, htrim⟩ := hafter
    rw [buffered_of_end_zero (h.buffers.onlyPackets hkind) hzc, List.append_nil] at horder
    exact zeroCopySplitAndPut_spec h hq hkind hzc htrim horder hflushed

/-- The put of a write ends. -/
theorem finishPut_spec (h : Inv s) {after : After α} (hwriter : s.writer = some (.putting, after))
    (hflushed : s.flushed = false) :
    (∃ t, s.putDone.continueWrite after = .ok t ∧ Inv t) ∧
      (after.bytes = [] → Inv { s.putDone with writer := none }) := by
  have horder : s.chunks.flatten ++ (after.bytes ++ s.stream.buffered) = s.written.map some := by
    have horder := h.order
    rwa [Session.inFlight, hwriter] at horder
  have hbase : Base s.putDone :=
    ⟨h.base.noFault, h.base.notOverlapped, h.base.buffers, h.base.chunks, h.base.unbatched⟩
  have hquiet : Quiet s.putDone := by
    cases h.control with
    | quiet hw => rw [hwriter] at hw; cases hw
    | putting _ _ hq => exact hq
    | waiting _ _ hw => rw [hwriter] at hw; cases hw
    | resumed _ _ hw => rw [hwriter] at hw; cases hw
    | flush _ hw => rw [hwriter] at hw; cases hw
  constructor
  · exact continueWrite_spec hbase hquiet (h.held _ _ hwriter).1 horder hflushed
  · intro hempty
    rw [hempty] at horder
    exact inv_ended hbase hquiet rfl h.base.buffers horder hflushed

/-- A write that waited for the batched flush goes to the sink. -/
theorem resume_spec (h : Inv s) {chunk : List (Option α)} {after : After α}
    (hwriter : s.writer = some (.resumed chunk, after)) :
    Inv { s.fdPut chunk with writer := some (.putting, after) } := by
  have horder := h.order
  obtain ⟨hafter, hchunk⟩ := h.held _ _ hwriter
  rw [Session.inFlight, hwriter] at horder
  cases h.control with
  | quiet hw => rw [hwriter] at hw; cases hw
  | putting _ hw => rw [hwriter] at hw; cases hw
  | waiting _ _ hw => rw [hwriter] at hw; cases hw
  | flush _ hw => rw [hwriter] at hw; cases hw
  | resumed _ _ hw hq hflush hflushing =>
    have hprogress := hq.inProgress hflushing
    have hbase := h.base.fdPut hprogress (hchunk chunk (.inr rfl))
    refine ⟨⟨hbase.noFault, hbase.notOverlapped, hbase.buffers, hbase.chunks, hbase.unbatched⟩,
      .putting after rfl ⟨hq.flushes, hq.background⟩ (congrArg (· + 1) hprogress) hflush hflushing, ?_, ?_,
      h.flushed⟩
    · refine Eq.trans ?_ horder
      show (s.chunks ++ [chunk]).flatten ++ (([] ++ after.bytes) ++ s.stream.buffered) =
        s.chunks.flatten ++ ((chunk ++ after.bytes) ++ s.stream.buffered)
      simp
    · intro state after' heq
      cases heq
      exact ⟨hafter, by simp⟩

/-- An unbatched flush is alone. -/
theorem Inv.flushing (h : Inv s) {i : Nat} {state : FlushState α} (hi : s.flushes[i]? = some state) :
    i = 0 ∧ s.flushes = [state] ∧ s.writer = none ∧ Quiet { s with flushes := [], inProgress := 0 } ∧
      s.stream.batchFlushes = false ∧ s.stream.buffered = [] ∧
      (state = .put .putting ∧ s.inProgress = 1 ∨ state = .sink ∧ s.inProgress = 0) := by
  have hne : s.flushes ≠ [] := by
    intro hnil
    rw [hnil] at hi
    cases hi
  cases h.control with
  | quiet _ hq => exact absurd hq.flushes hne
  | putting _ _ hq => exact absurd hq.flushes hne
  | waiting _ _ _ hflushes => exact absurd hflushes hne
  | resumed _ _ _ hq => exact absurd hq.flushes hne
  | flush state' hw hf hq hb hempty hputting =>
    rw [hf, List.getElem?_singleton] at hi
    split at hi
    · rename_i hzero
      cases hi
      exact ⟨hzero, hf, hw, hq, hb, hempty, hputting⟩
    · cases hi

/-- A packet is written. -/
theorem Inv.writePacket (h : Inv s) (hflushed : s.flushed = false) (hflushes : s.flushes = [])
    (hwriter : s.writer = none) (hkind : s.zeroCopy = true) (p : List α) :
    ∃ t, { s with written := s.written ++ p }.writePacket p = .ok t ∧ Inv t := by
  have hq := h.quiet hwriter hflushes
  refine writePacket_spec ⟨h.base.noFault, h.base.notOverlapped, h.base.buffers, h.base.chunks,
    h.base.unbatched⟩ ⟨hq.flushes, hq.background⟩ hkind hwriter ?_ hflushed
  show s.chunks.flatten ++ (s.stream.buffered ++ p.map some) = (s.written ++ p).map some
  rw [List.map_append, ← h.order_idle hwriter, List.append_assoc]

/-- A call that is awaited as it should be has no fault and keeps the invariant. -/
theorem Inv.perform (h : Inv s) (hflushed : s.flushed = false) {e : Event α} (hawaited : Awaited s e)
    {r : Except StreamFault (Session α)} (hperform : s.perform e = some r) : ∃ t, r = .ok t ∧ Inv t := by
  cases e with
  | write data =>
    rw [Session.perform] at hperform
    split at hperform
    · cases hperform
    · rename_i hcond
      obtain ⟨hwriter, hkind⟩ : s.writer = none ∧ s.zeroCopy = false := by simpa using hcond
      cases hperform
      have hq := h.quiet hwriter hawaited
      refine write_spec ⟨h.base.noFault, h.base.notOverlapped, h.base.buffers, h.base.chunks,
        h.base.unbatched⟩ ⟨hq.flushes, hq.background⟩ hkind hwriter ?_ hflushed
      show s.chunks.flatten ++ (s.stream.buffered ++ data.map some) = (s.written ++ data).map some
      rw [List.map_append, ← h.order_idle hwriter, List.append_assoc]
  | writePacket p =>
    rw [Session.perform] at hperform
    split at hperform
    · cases hperform
    · rename_i hcond
      obtain ⟨hwriter, hkind⟩ : s.writer = none ∧ s.zeroCopy = true := by simpa using hcond
      cases hperform
      exact h.writePacket hflushed hawaited hwriter hkind p
  | writeBuffer p =>
    rw [Session.perform] at hperform
    split at hperform
    · cases hperform
    · rename_i hcond
      obtain ⟨hwriter, hkind⟩ : s.writer = none ∧ s.zeroCopy = true := by simpa using hcond
      cases hperform
      obtain ⟨t, hwrite, hinv⟩ := h.writePacket hflushed hawaited hwriter hkind p
      refine ⟨t, ?_, hinv⟩
      rw [Session.writeBuffer]
      by_cases hlen : p.length = 0
      · rw [Session.writePacket, if_neg (fun hne => hne hlen)] at hwrite
        rw [if_pos hlen]
        exact hwrite
      · rw [if_neg hlen, if_pos (h.base.buffers.onlyPackets hkind)]
        exact hwrite
  | flush =>
    rw [Session.perform] at hperform
    split at hperform
    · cases hperform
    · rename_i hcond
      cases hperform
      exact flush_spec h (by simpa using hcond) hawaited hflushed
  | poll =>
    rw [Session.perform] at hperform
    split at hperform
    · rename_i hpoller
      cases hperform
      exact pollFlush_spec h (.inl hpoller) hflushed
    · cases hperform
  | resume =>
    rw [Session.perform] at hperform
    split at hperform
    · rename_i chunk after hwriter
      cases hperform
      exact ⟨_, rfl, resume_spec h hwriter⟩
    · cases hperform
  | finishPut ok =>
    rw [Session.perform] at hperform
    split at hperform
    · rename_i after hwriter
      cases hperform
      obtain ⟨hcontinue, hfail⟩ := finishPut_spec h hwriter hflushed
      cases ok with
      | true => exact hcontinue
      | false => exact ⟨_, rfl, hfail (hawaited _ _ hwriter)⟩
    · cases hperform
  | resumeFlush i =>
    rw [Session.perform] at hperform
    split at hperform
    · rename_i chunk hi
      rcases (h.flushing hi).2.2.2.2.2.2 with ⟨heq, -⟩ | ⟨heq, -⟩
      · cases heq
      · cases heq
    · cases hperform
  | finishFlushPut i ok =>
    rw [Session.perform] at hperform
    split at hperform
    · rename_i hi
      cases hperform
      obtain ⟨rfl, hf, hw, hq, hb, hempty, hputting⟩ := h.flushing hi
      have hprogress : s.inProgress = 1 := by simpa using hputting
      have hbase : ∀ flushes : List (FlushState α), Base { s.putDone with flushes := flushes } :=
        fun _ => ⟨h.base.noFault, h.base.notOverlapped, h.base.buffers, h.base.chunks, h.base.unbatched⟩
      have hdone : s.putDone.inProgress = 0 := congrArg (· - 1) hprogress
      refine ⟨_, rfl, hbase _, ?_, h.order, h.held, h.flushed⟩
      cases ok with
      | true =>
        refine .flush .sink hw ?_ ⟨rfl, hq.background⟩ hb hempty (.inr ⟨rfl, hdone⟩)
        show s.flushes.set 0 .sink = _
        rw [hf]
        rfl
      | false =>
        refine .quiet hw ⟨?_, ?_⟩
        · show s.flushes.eraseIdx 0 = _
          rw [hf]
          rfl
        · show Background s.poller s.stream.inBatch s.stream.flush s.stream.flushing s.putDone.inProgress
          rw [hdone]
          exact hq.background
    · cases hperform
  | finishFlush i ok =>
    rw [Session.perform] at hperform
    split at hperform
    · rename_i hi
      cases hperform
      obtain ⟨rfl, hf, hw, hq, hb, hempty, hputting⟩ := h.flushing hi
      have hprogress : s.inProgress = 0 := by simpa using hputting
      refine ⟨_, rfl, inv_of_quiet ⟨h.base.noFault, h.base.notOverlapped, h.base.buffers, h.base.chunks,
        h.base.unbatched⟩ ⟨?_, ?_⟩ hw (h.order_idle hw) fun _ => hempty⟩
      · show s.flushes.eraseIdx 0 = _
        rw [hf]
        rfl
      · show Background s.poller s.stream.inBatch s.stream.flush s.stream.flushing s.inProgress
        rw [hprogress]
        exact hq.background
    · cases hperform
  | finishPollPut ok =>
    rw [Session.perform] at hperform
    split at hperform
    · rename_i hpoller
      cases hperform
      have hdone := h.pollPutDone hpoller
      cases ok with
      | true => exact ⟨_, rfl, hdone⟩
      | false =>
        -- `poll_flush` does not read the state of its own chain.
        obtain ⟨t, hpoll, hinv⟩ := pollFlush_spec (hdone.relabel true s.flushed id) (.inr rfl) hflushed
        exact ⟨t, hpoll, hinv⟩
    · cases hperform
  | finishPollFlush ok =>
    rw [Session.perform] at hperform
    split at hperform
    · rename_i hpoller
      cases hperform
      exact pollFlush_spec (h.relabel _ s.flushed id) (.inr hpoller) hflushed
    · cases hperform

/-- Every step keeps the invariant. -/
theorem Inv.step (h : Inv s) {e : Event α} (hawaited : Awaited s e) (hstep : s.step e = some t) :
    Inv t := by
  have hbegin : Inv { s with flushed := false } :=
    h.relabel s.stream.ex false (fun htrue => nomatch htrue)
  rw [Session.step] at hstep
  split at hstep
  · cases hstep
  · cases hperform : { s with flushed := false }.perform e with
    | none =>
      rw [hperform] at hstep
      cases hstep
    | some r =>
      obtain ⟨t', rfl, hinv⟩ := hbegin.perform rfl (by
        cases e with
        | finishPut ok => cases ok <;> exact hawaited
        | _ => exact hawaited) hperform
      rw [hperform] at hstep
      cases hstep
      exact hinv

/-- What is written reaches the sink in order, without empty or overlapping puts. -/
theorem outputStream_correct {size : Nat} (hsize : 1 ≤ size) (trimToSize batchFlushes zeroCopy : Bool)
    {es : List (Event α)}
    (hawaited : Guarded Session.step Awaited (Session.create size trimToSize batchFlushes zeroCopy) es) :
    Always Session.step Correct (Session.create size trimToSize batchFlushes zeroCopy) es :=
  always_of_guarded Inv (fun _ h => h.correct) (fun _ _ _ h hok hstep => h.step hok hstep)
    (Inv.create hsize trimToSize batchFlushes zeroCopy) hawaited

/-- A bulk write of a stream of size 2 that waits for the batched flush of what was written before. -/
theorem outputStream_correct_batched : Always Session.step Correct (Session.create 2 true true false)
    [.write [1], .flush, .poll, .write [2, 3, 4], .finishPollPut true, .finishPollFlush true, .resume,
      .finishPut true] := by
  refine outputStream_correct (by decide) true true false ?_
  intro s₁ h₁
  cases h₁
  refine ⟨rfl, fun s₂ h₂ => ?_⟩
  cases h₂
  refine ⟨rfl, fun s₃ h₃ => ?_⟩
  cases h₃
  refine ⟨trivial, fun s₄ h₄ => ?_⟩
  cases h₄
  exact ⟨rfl, guarded_of_forall (by simp [Awaited]) _⟩

/-- A write that does not wait for an unbatched flush overlaps with it, and a write whose first put
fails loses the rest. -/
theorem outputStream_not_awaited :
    ¬ Always Session.step Correct (Session.create 2 false false false)
        [.write [1], .flush, .write [2, 3]] ∧
      ¬ Always Session.step Correct (Session.create 2 true false false)
        [.write [1, 2, 3, 4], .finishPut false] := by
  constructor
  · intro h
    have hlast := ((h.2 _ rfl).2 _ rfl).2 _ rfl
    exact nomatch hlast.notOverlapped
  · intro h
    have hlast := (h.2 _ rfl).2 _ rfl
    exact absurd hlast.order (by decide)

end Netstar.Proofs.Core.OutputStream
