import Netstar.Spec.Http.ChunkedOutput
import Netstar.Proofs.Core.OutputStream

/-!
# `Netstar.Proofs.Http.ChunkedOutput`: what a reply in chunks delivers

A call that copies is a run of the session of `Netstar.Spec.Core.OutputStream` in which each put is
done before the next event (`call_follows`), so the puts of the body writer are known from
`outputStream_correct`: they are not empty and their bytes are those that were written. `Matches`
relates a session to a stream in the middle of a call, and `Follows` between two calls.

A packet with a byte stops the program. Once it waits in `_zc_bufs` (`Stuck`), every later call either
leaves it there, or meets the assertion of a write or the `abort()` of the sink, and the final close
meets the `abort()`.
-/

set_option autoImplicit false

namespace Netstar.Proofs.Http

open Netstar.Lib
open Netstar.Lib.ChunkedCoding
open Netstar.Spec.Core
open Netstar.Spec.Core.OutputStream
open Netstar.Spec.Http
open Netstar.Proofs.Core.OutputStream (AfterOk Awaited Inv finishPut_spec outputStream_correct)

variable {head : List (List (Option UInt8))} {s t : Session UInt8} {c : ChunkedStream}

/-! ### A call and its session -/

/-- The writes on `con.out()` for a put. -/
def putWrites (chunk : List (Option UInt8)) : List (List (Option UInt8)) :=
  if chunk.length = 0 then []
  else [(hex chunk.length ++ crlf).map some, chunk, crlf.map some]

/-- A session and a stream that went to the sink with the same puts. -/
structure Matches (head : List (List (Option UInt8))) (s : Session UInt8) (c : ChunkedStream) :
    Prop where
  stream : s.stream = c.stream
  out : c.out = head ++ s.chunks.flatMap putWrites
  trimmed : s.stream.trimToSize = true
  unbatched : s.stream.batchFlushes = false
  quiet : s.stream.flushing = false

/-- What the parts of a write leave alone. -/
structure Kept (s t : Session UInt8) : Prop where
  written : t.written = s.written
  flushes : t.flushes = s.flushes
  zeroCopy : t.zeroCopy = s.zeroCopy

/-- The rest of a call, when the put in progress is done. -/
def continueCall (c : ChunkedStream) : Option (PutState UInt8 × After UInt8) →
    Except BodyStop ChunkedStream
  | none => .ok c
  | some (_, .done) => .ok c
  | some (_, .bulk tmp) => c.bulkPut tmp
  | some (_, .split buf) => c.splitLoop buf
  | some (_, .zeroCopySplit p) => c.zeroCopySplitAndPut p

/-- The result of a part of a write in the session, and the same part of the call. -/
structure Part (head : List (List (Option UInt8))) (s t : Session UInt8) (c : ChunkedStream)
    (r : Except BodyStop ChunkedStream) : Prop where
  call : r = continueCall c t.writer
  same : Matches head t c
  kept : Kept s t
  putting : ∀ state after, t.writer = some (state, after) → state = .putting

/-- A copy that stays inside the buffer. -/
theorem copy_ok {buf src dst : List (Option UInt8)} {pos : Nat} (h : copyTo buf pos src = .ok dst) :
    ChunkedStream.copy buf pos src = .ok dst := by
  rw [ChunkedStream.copy, h]
  rfl

/-- A chunk is written as its size line, its bytes and a line end. -/
theorem putWrites_fdPut (c : ChunkedStream) (chunk : List (Option UInt8)) :
    c.fdPut chunk = { c with out := c.out ++ putWrites chunk } := by
  rw [ChunkedStream.fdPut, putWrites]
  split
  · rw [List.append_nil]
  · show ChunkedStream.mk _ _ _ = ChunkedStream.mk _ _ _
    simp [ChunkedStream.writeSize]

/-- No put waits for a batched flush. -/
theorem Matches.put_eq (h : Matches head s c) (chunk : List (Option UInt8)) :
    s.put chunk = .ok ({ s with stream.flush := false }.fdPut chunk, .putting) := by
  rw [Session.put]
  exact if_neg (by simp [h.quiet])

/-- A put in the session is a put of the stream. -/
theorem Matches.put (h : Matches head s c) (chunk : List (Option UInt8)) :
    Matches head ({ s with stream.flush := false }.fdPut chunk) (c.put chunk) := by
  rw [ChunkedStream.put, putWrites_fdPut]
  refine ⟨?_, ?_, h.trimmed, h.unbatched, h.quiet⟩
  · show { s.stream with flush := false } = { c.stream with flush := false }
    rw [h.stream]
  · show c.out ++ putWrites chunk = head ++ (s.chunks ++ [chunk]).flatMap putWrites
    rw [h.out, List.flatMap_append, List.append_assoc, List.flatMap_singleton]

/-- The session and the stream give the same chunk to the sink. -/
theorem Matches.putThen (h : Matches head s c) {chunk : List (Option UInt8)} {after : After UInt8}
    (hput : s.putThen chunk after = .ok t) :
    Matches head t (c.put chunk) ∧ Kept s t ∧ t.writer = some (.putting, after) := by
  rw [Session.putThen, h.put_eq] at hput
  cases hput
  have hmatches := h.put chunk
  exact ⟨⟨hmatches.stream, hmatches.out, h.trimmed, h.unbatched, h.quiet⟩, ⟨rfl, rfl, rfl⟩, rfl⟩

/-- `split_and_put` from one put to the next. What is left gets shorter. -/
theorem splitLoop_part (h : Matches head s c) {buf : List (Option UInt8)}
    (hloop : s.splitLoop buf = .ok t) :
    ∃ c', Part head s t c' (c.splitLoop buf) ∧
      ∀ state after, t.writer = some (state, after) → after.bytes.length < buf.length := by
  obtain ⟨stream, size_pos, out⟩ := c
  obtain rfl : s.stream = stream := h.stream
  rw [ChunkedStream.splitLoop]
  dsimp only
  rw [Session.splitLoop] at hloop
  by_cases hlt : buf.length < s.stream.size
  · rw [if_pos hlt] at hloop ⊢
    obtain ⟨dst, hdst, hdone⟩ := bind_eq_ok.mp hloop
    cases hdone
    rw [copy_ok hdst]
    refine ⟨{ (⟨s.stream, size_pos, out⟩ : ChunkedStream) with
      stream.buf := dst, stream.endPos := buf.length }, ⟨rfl, ⟨rfl, h.out, h.trimmed, h.unbatched,
      h.quiet⟩, ⟨rfl, rfl, rfl⟩, fun _ _ hnone => (by cases hnone)⟩,
      fun _ _ hnone => (by cases hnone)⟩
  · rw [if_neg hlt] at hloop ⊢
    have hput : s.putThen (buf.take s.stream.size) (.split (buf.drop s.stream.size)) = .ok t := hloop
    obtain ⟨hmatches, hkept, hwriter⟩ := h.putThen hput
    refine ⟨_, ⟨?_, hmatches, hkept, fun state after hsome => ?_⟩, fun state after hsome => ?_⟩
    · rw [hwriter]
      rfl
    · rw [hwriter] at hsome
      cases hsome
      rfl
    · rw [hwriter] at hsome
      cases hsome
      have hdrop : (buf.drop s.stream.size).length = buf.length - s.stream.size := List.length_drop
      show (buf.drop s.stream.size).length < buf.length
      omega

/-- The end of a bulk write. -/
theorem bulkPut_part (h : Matches head s c) (hend : s.stream.endPos = 0) {tmp : List (Option UInt8)}
    (hbulk : s.bulkPut tmp = .ok t) :
    ∃ c', Part head s t c' (c.bulkPut tmp) ∧
      ∀ state after, t.writer = some (state, after) → after.bytes.length < tmp.length := by
  have htrim : c.stream.trimToSize = true := h.stream ▸ h.trimmed
  have hend' : c.stream.endPos = 0 := h.stream ▸ hend
  rw [Session.bulkPut, if_pos h.trimmed, Session.splitAndPut, if_pos hend] at hbulk
  rw [ChunkedStream.bulkPut, if_pos htrim, ChunkedStream.splitAndPut, if_pos hend']
  exact splitLoop_part h hbulk

/-- A write of a string, to its first put. -/
theorem write_part (h : Matches head s c) (hwriter : s.writer = none) (hzc : s.stream.zcBufs = none)
    {data : List (Option UInt8)} (hwrite : s.write data = .ok t) :
    ∃ c', Part head s t c' (c.write data) := by
  obtain ⟨stream, size_pos, out⟩ := c
  obtain rfl : s.stream = stream := h.stream
  have hnone : ¬ s.stream.zcBufs.isSome = true := by simp [hzc]
  rw [Session.write, if_neg hnone] at hwrite
  rw [ChunkedStream.write, if_neg hnone]
  dsimp only at hwrite ⊢
  by_cases hn : data.length ≥
      if s.stream.endPos ≠ 0 then 2 * s.stream.size - s.stream.endPos else s.stream.size
  · rw [if_pos hn] at hwrite ⊢
    by_cases hend : s.stream.endPos ≠ 0
    · -- The buffer is filled and put, and the rest follows as a bulk write.
      rw [if_pos hend] at hwrite ⊢
      obtain ⟨buf, hbuf, hwrite⟩ := bind_eq_ok.mp hwrite
      obtain ⟨tmp, htmp, hwrite⟩ := bind_eq_ok.mp hwrite
      rw [copy_ok hbuf, ok_bind, copy_ok htmp, ok_bind]
      have hstart : Matches head { s with stream.buf := [], stream.endPos := 0 }
          { (⟨s.stream, size_pos, out⟩ : ChunkedStream) with stream.buf := [], stream.endPos := 0 } :=
        ⟨rfl, h.out, h.trimmed, h.unbatched, h.quiet⟩
      obtain ⟨hmatches, hkept, hputting⟩ := hstart.putThen hwrite
      refine ⟨_, ?_, hmatches, ⟨hkept.written, hkept.flushes, hkept.zeroCopy⟩,
        fun state after hsome => ?_⟩
      · rw [hputting]
        rfl
      · rw [hputting] at hsome
        cases hsome
        rfl
    -- The buffer is empty, so the write is a bulk write from its first byte.
    · rw [if_neg hend] at hwrite ⊢
      obtain ⟨tmp, htmp, hwrite⟩ := bind_eq_ok.mp hwrite
      rw [copy_ok htmp, ok_bind]
      obtain ⟨c', hpart, -⟩ := bulkPut_part h (Decidable.not_not.mp hend) hwrite
      exact ⟨c', hpart⟩
  · rw [if_neg hn] at hwrite ⊢
    obtain ⟨buf, hbuf, hwrite⟩ := bind_eq_ok.mp hwrite
    rw [copy_ok hbuf, ok_bind]
    by_cases hfits : min data.length (s.stream.size - s.stream.endPos) = data.length
    · -- The buffer takes the write as a whole.
      rw [if_pos hfits] at hwrite ⊢
      cases hwrite
      refine ⟨{ (⟨s.stream, size_pos, out⟩ : ChunkedStream) with
        stream.buf := buf
        stream.endPos := s.stream.endPos + min data.length (s.stream.size - s.stream.endPos) }, ?_,
        ⟨rfl, h.out, h.trimmed, h.unbatched, h.quiet⟩, ⟨rfl, rfl, rfl⟩, fun state after hsome => ?_⟩
      · show _ = continueCall _ s.writer
        rw [hwriter]
        rfl
      · rw [show s.writer = some (state, after) from hsome] at hwriter
        cases hwriter
    · -- The buffer is filled and put, and the rest waits in a new one.
      rw [if_neg hfits] at hwrite ⊢
      obtain ⟨next, hnext, hwrite⟩ := bind_eq_ok.mp hwrite
      rw [copy_ok hnext, ok_bind]
      have hstart : Matches head
          { s with
            stream.buf := next
            stream.endPos := data.length - min data.length (s.stream.size - s.stream.endPos) }
          { (⟨s.stream, size_pos, out⟩ : ChunkedStream) with
            stream.buf := next
            stream.endPos := data.length - min data.length (s.stream.size - s.stream.endPos) } :=
        ⟨rfl, h.out, h.trimmed, h.unbatched, h.quiet⟩
      obtain ⟨hmatches, hkept, hputting⟩ := hstart.putThen hwrite
      refine ⟨_, ?_, hmatches, ⟨hkept.written, hkept.flushes, hkept.zeroCopy⟩,
        fun state after hsome => ?_⟩
      · rw [hputting]
        rfl
      · rw [hputting] at hsome
        cases hsome
        rfl

/-- A session between two calls of copying kinds, and the stream. -/
structure Follows (head : List (List (Option UInt8))) (s : Session UInt8) (c : ChunkedStream) :
    Prop where
  inv : Inv s
  same : Matches head s c
  writer : s.writer = none
  flushes : s.flushes = []
  copying : s.zeroCopy = false

/-- An event that can happen, in a session without a fault. -/
theorem step_eq_some {e : Event UInt8} (hfault : s.fault = none)
    (hperform : { s with flushed := false }.perform e = some (.ok t)) : s.step e = some t := by
  rw [Session.step, if_neg (by simp [hfault]), hperform]

/-- The sink is done, and the call goes on. -/
theorem perform_finishPut {after : After UInt8} (hwriter : s.writer = some (.putting, after)) :
    s.perform (.finishPut true) = some (s.putDone.continueWrite after) := by
  rw [Session.perform, hwriter]
  rfl

/-- What a write does when its put is done. -/
theorem continueCall_part (h : Matches head s c) {after : After UInt8} (hafter : AfterOk s after)
    (hcopying : s.zeroCopy = false) (hnext : s.continueWrite after = .ok t) :
    ∃ c', Part head s t c' (continueCall c (some (.putting, after))) ∧
      ∀ state after', t.writer = some (state, after') → after'.bytes.length < after.bytes.length := by
  cases after with
  | done =>
    cases hnext
    exact ⟨c, ⟨rfl, ⟨h.stream, h.out, h.trimmed, h.unbatched, h.quiet⟩, ⟨rfl, rfl, rfl⟩,
      fun _ _ hnone => (nomatch hnone)⟩, fun _ _ hnone => (nomatch hnone)⟩
  | bulk tmp => exact bulkPut_part h hafter.2.1 hnext
  | split buf => exact splitLoop_part h hnext
  | zeroCopySplit p =>
    rw [hafter.1] at hcopying
    cases hcopying

/-- The puts of a write are done one after the other. The induction is on what is left of the
write, which gets shorter with every put. -/
theorem finish_call {n : Nat} (hinv : Inv t) (h : Matches head t c) (hflushes : t.flushes = [])
    (hcopying : t.zeroCopy = false)
    (hputting : ∀ state after, t.writer = some (state, after) →
      state = .putting ∧ after.bytes.length < n) :
    ∃ es u c', run Session.step t es = some u ∧ continueCall c t.writer = .ok c' ∧
      Follows head u c' ∧ u.written = t.written := by
  induction n generalizing t c with
  | zero =>
    cases hwriter : t.writer with
    | none => exact ⟨[], t, c, rfl, rfl, ⟨hinv, h, hwriter, hflushes, hcopying⟩, rfl⟩
    | some pending =>
      obtain ⟨-, hlt⟩ := hputting _ _ hwriter
      exact absurd hlt (Nat.not_lt_zero _)
  | succ n ih =>
    cases hwriter : t.writer with
    | none => exact ⟨[], t, c, rfl, rfl, ⟨hinv, h, hwriter, hflushes, hcopying⟩, rfl⟩
    | some pending =>
      obtain ⟨state, after⟩ := pending
      obtain ⟨rfl, hlt⟩ := hputting _ _ hwriter
      have hstart : Inv { t with flushed := false } :=
        hinv.relabel t.stream.ex false (fun htrue => nomatch htrue)
      obtain ⟨⟨u, hnext, hu⟩, -⟩ := finishPut_spec hstart hwriter rfl
      have hstep : Session.step t (.finishPut true) = some u := by
        refine step_eq_some hinv.base.noFault ?_
        exact (@perform_finishPut { t with flushed := false } after hwriter).trans (congrArg some hnext)
      have hmatches : Matches head { t with flushed := false }.putDone c :=
        ⟨h.stream, h.out, h.trimmed, h.unbatched, h.quiet⟩
      obtain ⟨c', hpart, hshorter⟩ :=
        continueCall_part hmatches (hinv.held _ _ hwriter).1 hcopying hnext
      obtain ⟨es, v, c'', hrun, hcall, hfollows, hwritten⟩ := ih hu hpart.same
        (hpart.kept.flushes.trans hflushes) (hpart.kept.zeroCopy.trans hcopying)
        (fun state' after' hsome => ⟨hpart.putting _ _ hsome,
          Nat.lt_of_lt_of_le (hshorter _ _ hsome) (Nat.le_of_lt_succ hlt)⟩)
      refine ⟨.finishPut true :: es, v, c'', run_cons.mpr ⟨u, hstep, hrun⟩, ?_, hfollows,
        hwritten.trans hpart.kept.written⟩
      rw [hpart.call, hcall]

/-- A write of a string is a run of the session. -/
theorem write_follows (h : Follows head s c) (data : List UInt8) :
    ∃ es t c', run Session.step s es = some t ∧ c.write (data.map some) = .ok c' ∧
      Follows head t c' ∧ t.written = s.written ++ data := by
  have hstart : Inv { s with flushed := false } :=
    h.inv.relabel s.stream.ex false (fun htrue => by cases htrue)
  have hperform : Session.perform { s with flushed := false } (.write data) =
      some ({ s with flushed := false, written := s.written ++ data }.write (data.map some)) := by
    rw [Session.perform, if_neg (by simp [h.writer, h.copying])]
  obtain ⟨t, hwrite, ht⟩ := hstart.perform (e := .write data) rfl h.flushes hperform
  have hstep : Session.step s (.write data) = some t :=
    step_eq_some h.inv.base.noFault (by rw [hperform, hwrite])
  have hmatches : Matches head { s with flushed := false, written := s.written ++ data } c :=
    ⟨h.same.stream, h.same.out, h.same.trimmed, h.same.unbatched, h.same.quiet⟩
  obtain ⟨c', hpart⟩ :=
    write_part hmatches h.writer (h.inv.base.buffers.onlyBytes h.copying) hwrite
  obtain ⟨n, hn⟩ : ∃ n, ∀ state after, t.writer = some (state, after) → after.bytes.length < n := by
    cases t.writer with
    | none => exact ⟨0, fun _ _ hnone => by cases hnone⟩
    | some pending =>
      refine ⟨pending.2.bytes.length + 1, fun state after hsome => ?_⟩
      cases hsome
      exact Nat.lt_succ_self _
  obtain ⟨es, u, c'', hrun, hcall, hfollows, hwritten⟩ := finish_call ht hpart.same
    (hpart.kept.flushes.trans h.flushes) (hpart.kept.zeroCopy.trans h.copying)
    (fun state after hsome => ⟨hpart.putting _ _ hsome, hn _ _ hsome⟩)
  refine ⟨.write data :: es, u, c'', run_cons.mpr ⟨t, hstep, hrun⟩, ?_, hfollows,
    hwritten.trans hpart.kept.written⟩
  rw [hpart.call, hcall]

/-- The put of a flush ends, and then the flush of the sink. -/
theorem run_flush_ends (hfault : s.fault = none) (hflushes : s.flushes = [.put .putting]) :
    run Session.step s [.finishFlushPut 0 true, .finishFlush 0 true] =
      some { s.putDone with flushes := [], flushed := true } := by
  obtain ⟨stream, zeroCopy, writer, flushes, poller, chunks, inProgress, overlapped, written, flushed,
    fault⟩ := s
  cases hfault
  cases hflushes
  rfl

/-- The put of a flush starts. -/
theorem flush_starts (h : Follows head s c) (hend : s.stream.endPos ≠ 0) :
    ∃ t, Session.step s .flush = some t ∧ t.flushes = [.put .putting] ∧ t.writer = none ∧
      t.zeroCopy = false ∧ t.written = s.written ∧
      Matches head t ({ c with stream.buf := [], stream.endPos := 0 }.put
        (c.stream.buf.take c.stream.endPos)) := by
  obtain ⟨stream, size_pos, out⟩ := c
  obtain rfl : s.stream = stream := h.same.stream
  have hbatch : (!s.stream.batchFlushes) = true := by
    rw [h.same.unbatched]
    rfl
  have hstart : Matches head { s with flushed := false, stream.buf := [], stream.endPos := 0 }
      { (⟨s.stream, size_pos, out⟩ : ChunkedStream) with stream.buf := [], stream.endPos := 0 } :=
    ⟨rfl, h.same.out, h.same.trimmed, h.same.unbatched, h.same.quiet⟩
  have hput := hstart.put_eq (s.stream.buf.take s.stream.endPos)
  have hperform : Session.perform { s with flushed := false } .flush =
      some (Session.flush { s with flushed := false }) := by
    rw [Session.perform, if_neg (by simp [h.writer])]
  rw [Session.flush, if_pos hbatch, if_pos hend] at hperform
  have hstep := step_eq_some h.inv.base.noFault (hperform.trans (congrArg some
    (congrArg (· >>= _) hput)))
  have hmatches := hstart.put (s.stream.buf.take s.stream.endPos)
  refine ⟨_, hstep, ?_, h.writer, h.copying, rfl,
    ⟨hmatches.stream, hmatches.out, h.same.trimmed, h.same.unbatched, h.same.quiet⟩⟩
  show s.flushes ++ [.put .putting] = _
  rw [h.flushes, List.nil_append]

/-- A flush is a run of the session. -/
theorem flush_follows (h : Follows head s c) :
    ∃ es t c', run Session.step s es = some t ∧ c.flush = .ok c' ∧ Follows head t c' ∧
      t.written = s.written ∧ t.stream.buffered = [] := by
  have hzc := h.inv.base.buffers.onlyBytes h.copying
  have hzc' : c.stream.zcBufs = none := h.same.stream ▸ hzc
  rw [ChunkedStream.flush, hzc']
  by_cases hend : s.stream.endPos = 0
  · have hend' : c.stream.endPos = 0 := h.same.stream ▸ hend
    rw [if_neg (fun hne => hne hend')]
    exact ⟨[], s, c, rfl, rfl, h, rfl, Core.OutputStream.buffered_of_end_zero hend hzc⟩
  · obtain ⟨t, hstep, hflushes, hwriter, hcopying, hwritten, hmatches⟩ := flush_starts h hend
    have ht : Inv t := h.inv.step (e := .flush) h.flushes hstep
    have hends := run_flush_ends ht.base.noFault hflushes
    obtain ⟨u, hu, hrest⟩ := run_cons.mp hends
    obtain ⟨v, hv, hdone⟩ := run_cons.mp hrest
    cases hdone
    have hinv := (ht.step (e := .finishFlushPut 0 true) trivial hu).step
      (e := .finishFlush 0 true) trivial hv
    have hend' : c.stream.endPos ≠ 0 := h.same.stream ▸ hend
    rw [if_pos hend']
    refine ⟨_, _, _, run_cons.mpr ⟨t, hstep, hends⟩, rfl, ?_, hwritten, hinv.flushed rfl⟩
    exact ⟨hinv, ⟨hmatches.stream, hmatches.out, hmatches.trimmed, hmatches.unbatched,
      hmatches.quiet⟩, hwriter, rfl, hcopying⟩

/-- A call that writes nothing without a copy is a run of the session. -/
theorem call_follows (h : Follows head s c) {call : BodyCall} (hcall : call.zeroCopyBytes = []) :
    ∃ es t c', run Session.step s es = some t ∧ call.perform c = .ok c' ∧ Follows head t c' ∧
      t.written = s.written ++ call.bytes := by
  have hidle : ∃ es t c', run Session.step s es = some t ∧ Except.ok c = Except.ok (ε := BodyStop) c' ∧
      Follows head t c' ∧ t.written = s.written ++ [] :=
    ⟨[], s, c, rfl, rfl, h, (List.append_nil _).symm⟩
  cases call with
  | write data => exact write_follows h data
  | writeBuffer p =>
    obtain rfl : p = [] := hcall
    exact hidle
  | writePacket p =>
    obtain rfl : p = [] := hcall
    exact hidle
  | writeScattered fragments =>
    have hnil : fragments.flatten = [] := hcall
    rw [BodyCall.perform, BodyCall.bytes, hnil]
    exact hidle
  | flush =>
    obtain ⟨es, t, c', hrun, hflush, hfollows, hwritten, -⟩ := flush_follows h
    exact ⟨es, t, c', hrun, hflush, hfollows, hwritten.trans (List.append_nil _).symm⟩

/-- Calls of the copying kind, one after another. -/
theorem calls_follow {calls : List BodyCall} (h : Follows head s c)
    (hcalls : ∀ call ∈ calls, call.zeroCopyBytes = []) :
    ∃ es t c', run Session.step s es = some t ∧ calls.foldlM BodyCall.perform c = .ok c' ∧
      Follows head t c' ∧ t.written = s.written ++ calls.flatMap BodyCall.bytes := by
  induction calls generalizing s c with
  | nil => exact ⟨[], s, c, rfl, rfl, h, (List.append_nil _).symm⟩
  | cons call calls ih =>
    obtain ⟨es, t, c', hrun, hperform, hfollows, hwritten⟩ :=
      call_follows h (hcalls call List.mem_cons_self)
    obtain ⟨es', u, c'', hrun', hrest, hfollows', hwritten'⟩ :=
      ih hfollows fun call' hmem => hcalls call' (List.mem_cons_of_mem call hmem)
    refine ⟨es ++ es', u, c'', run_append.mpr ⟨t, hrun, hrun'⟩, ?_, hfollows', ?_⟩
    · rw [List.foldlM_cons, hperform, ok_bind, hrest]
    · rw [hwritten', hwritten, List.flatMap_cons, List.append_assoc]

/-- A new session and a new stream. -/
theorem follows_create (head : List (List (Option UInt8))) :
    Follows head (Session.create 32000 true false false) (makeHttpChunkedOutputStream head) :=
  ⟨Core.OutputStream.Inv.create (by decide) true false false,
    ⟨rfl, (List.append_nil head).symm, rfl, rfl, rfl⟩, rfl, rfl, rfl⟩

/-- The body writer copies all it writes: the puts are those of a session that has put everything. -/
theorem bodyWriter_follows {calls : List BodyCall} (h : Follows head s c)
    (hcalls : ∀ call ∈ calls, call.zeroCopyBytes = []) :
    ∃ t c', bodyWriter calls c = .ok c' ∧ Follows head t c' ∧ (∀ p ∈ t.chunks, p ≠ []) ∧
      t.chunks.flatten = (s.written ++ calls.flatMap BodyCall.bytes).map some := by
  obtain ⟨es, t, c', -, hperform, hfollows, hwritten⟩ := calls_follow h hcalls
  obtain ⟨es', u, c'', -, hclose, hfollows', hwritten', hempty⟩ := flush_follows hfollows
  have horder := hfollows'.inv.order_idle hfollows'.writer
  rw [hempty, List.append_nil, hwritten', hwritten] at horder
  refine ⟨u, c'', ?_, hfollows', hfollows'.inv.correct.nonempty, horder⟩
  rw [bodyWriter, hperform, ok_bind]
  exact hclose

/-! ### The bytes on the connection -/

/-- Puts whose bytes are all written. -/
theorem exists_chunks {puts : List (List (Option UInt8))} {data : List UInt8}
    (h : puts.flatten = data.map some) :
    ∃ chunks : List (List UInt8), puts = chunks.map (List.map some) ∧ chunks.flatten = data := by
  induction puts generalizing data with
  | nil =>
    have hnil : data = [] := by simpa using h.symm
    exact ⟨[], rfl, hnil.symm⟩
  | cons p puts ih =>
    rw [List.flatten_cons] at h
    obtain ⟨front, back, rfl, hfront, hback⟩ := List.append_eq_map_iff.mp h
    obtain ⟨chunks, rfl, hchunks⟩ := ih hback.symm
    refine ⟨front :: chunks, ?_, ?_⟩
    · rw [List.map_cons, hfront]
    · rw [List.flatten_cons, hchunks]

/-- The bytes of a chunk on the wire are its encoding. -/
theorem putWrites_chunk {chunk : List UInt8} (h : chunk ≠ []) :
    (putWrites (chunk.map some)).flatten = (encodeChunk chunk).map some := by
  have hlength : (chunk.map some).length ≠ 0 := by simpa using h
  rw [putWrites, if_neg hlength, encodeChunk]
  simp

/-- So are those of several chunks. -/
theorem putWrites_chunks {chunks : List (List UInt8)} (h : ∀ chunk ∈ chunks, chunk ≠ []) :
    ((chunks.map (List.map some)).flatMap putWrites).flatten =
      (chunks.flatMap encodeChunk).map some := by
  induction chunks with
  | nil => rfl
  | cons chunk chunks ih =>
    rw [List.map_cons, List.flatMap_cons, List.flatten_append,
      putWrites_chunk (h chunk List.mem_cons_self),
      ih fun chunk' hmem => h chunk' (List.mem_cons_of_mem chunk hmem), List.flatMap_cons,
      List.map_append]

/-- The last chunk is the one of size 0. -/
theorem text_lastChunk : text "0\r\n\r\n" = lastChunk := by decide

/-- The bytes after the headers are a chunked coding of what was written. -/
def Delivered (r : Reply) (calls : List BodyCall) : Prop :=
  ∃ out body chunks, r.startResponse calls = .ok out ∧
    out.flatten = (r.head.flatten ++ body).map some ∧ decode body = some chunks ∧
    (∀ chunk ∈ chunks, chunk ≠ []) ∧ chunks.flatten = calls.flatMap BodyCall.bytes

/-- A body that is written by copying is delivered. -/
theorem delivered_of_copying (r : Reply) {calls : List BodyCall}
    (hcalls : ∀ call ∈ calls, call.zeroCopyBytes = []) : Delivered r calls := by
  obtain ⟨t, c, hwriter, hfollows, hnonempty, hputs⟩ :=
    bodyWriter_follows (follows_create (r.head.map (List.map some))) hcalls
  obtain ⟨chunks, hchunks, hflatten⟩ := exists_chunks hputs
  have hnonempty' : ∀ chunk ∈ chunks, chunk ≠ [] := by
    rintro _ hmem rfl
    exact hnonempty [] (hchunks ▸ List.mem_map_of_mem hmem) rfl
  refine ⟨c.out ++ [(text "0\r\n\r\n").map some], encode chunks, chunks, ?_, ?_,
    decode_encode hnonempty', hnonempty', hflatten⟩
  · rw [Reply.startResponse, Reply.writeReplyToConnection, hwriter]
    rfl
  · rw [hfollows.same.out, hchunks, text_lastChunk, encode]
    simp only [List.flatten_append, putWrites_chunks hnonempty', List.map_append,
      ← List.map_flatten, List.flatten_singleton, List.append_assoc]

/-! ### Packets with bytes -/

/-- A packet waits in `_zc_bufs`. -/
def Stuck (c : ChunkedStream) : Prop := c.stream.zcBufs.isSome = true ∧ c.stream.endPos = 0

/-- What stops the program: `abort()`, or the assertion that the writes are of one kind. -/
def Refused (stop : BodyStop) : Prop := stop = .abort ∨ stop = .stream .assertion

/-- A packet is refused, or the stream can no longer be flushed. -/
theorem writePacket_refused {p : List UInt8} (hp : p ≠ []) (c : ChunkedStream) :
    Sat Refused Stuck (c.writePacket p) := by
  have hlength : p.length ≠ 0 := by simpa using hp
  rw [ChunkedStream.writePacket, if_pos hlength]
  by_cases hend : c.stream.endPos = 0
  · rw [if_pos hend]
    dsimp only
    by_cases hlong : (c.stream.appended p).length ≥ c.stream.size
    · rw [if_pos hlong]
      split
      · rw [ChunkedStream.zeroCopySplitAndPut]
        dsimp only
        rw [if_neg (Nat.not_lt.mpr hlong)]
        exact .inl rfl
      · exact .inl rfl
    · rw [if_neg hlong]
      exact ⟨rfl, hend⟩
  · rw [if_neg hend]
    exact .inr rfl

/-- A stream with packets cannot be flushed. -/
theorem flush_stuck (h : Stuck c) : c.flush = .error .abort := by
  obtain ⟨p, hp⟩ := Option.isSome_iff_exists.mp h.1
  rw [ChunkedStream.flush, if_neg (fun hne => hne h.2), hp]
  rfl

/-- A call with bytes that are not copied. -/
theorem perform_refused {call : BodyCall} (hcall : call.zeroCopyBytes ≠ []) (c : ChunkedStream) :
    Sat Refused Stuck (call.perform c) := by
  cases call with
  | write data => exact absurd rfl hcall
  | writeBuffer p =>
    have hlength : p.length ≠ 0 := by simpa using (show p ≠ [] from hcall)
    rw [BodyCall.perform, ChunkedStream.writeBuffer, if_neg hlength]
    split
    · exact writePacket_refused hcall c
    · exact .inr rfl
  | writePacket p => exact writePacket_refused hcall c
  | writeScattered fragments => exact writePacket_refused hcall c
  | flush => exact absurd rfl hcall

/-- A later call, when a packet waits. -/
theorem perform_stuck (h : Stuck c) (call : BodyCall) : Sat Refused Stuck (call.perform c) := by
  by_cases hcall : call.zeroCopyBytes = []
  · cases call with
    | write data =>
      rw [BodyCall.perform, ChunkedStream.write, if_pos h.1]
      exact .inr rfl
    | writeBuffer p =>
      obtain rfl : p = [] := hcall
      exact h
    | writePacket p =>
      obtain rfl : p = [] := hcall
      exact h
    | writeScattered fragments =>
      have hnil : fragments.flatten = [] := hcall
      rw [BodyCall.perform, hnil]
      exact h
    | flush =>
      rw [BodyCall.perform, flush_stuck h]
      exact .inl rfl
  · exact perform_refused hcall c

/-- A body writer does not get past a stuck stream. -/
theorem bodyWriter_stuck (h : Stuck c) (calls : List BodyCall) :
    Sat Refused (fun _ => False) (bodyWriter calls c) := by
  induction calls generalizing c with
  | nil =>
    show Sat Refused _ c.flush
    rw [flush_stuck h]
    exact .inl rfl
  | cons call calls ih =>
    rw [bodyWriter, List.foldlM_cons, bind_assoc]
    exact (perform_stuck h call).bind fun c' h' => ih h'

/-- The calls before the first one with bytes that are not copied do what they should. -/
theorem bodyWriter_refused {calls : List BodyCall} (h : Follows head s c)
    (hcalls : ∃ call ∈ calls, call.zeroCopyBytes ≠ []) :
    Sat Refused (fun _ => False) (bodyWriter calls c) := by
  induction calls generalizing s c with
  | nil =>
    obtain ⟨call, hmem, -⟩ := hcalls
    cases hmem
  | cons call calls ih =>
    rw [bodyWriter, List.foldlM_cons, bind_assoc]
    by_cases hcall : call.zeroCopyBytes = []
    · obtain ⟨es, t, c', -, hperform, hfollows, -⟩ := call_follows h hcall
      rw [hperform, ok_bind]
      refine ih hfollows ?_
      obtain ⟨call', hmem, hbytes⟩ := hcalls
      rcases List.mem_cons.mp hmem with rfl | hmem
      · exact absurd hcall hbytes
      · exact ⟨call', hmem, hbytes⟩
    · exact (perform_refused hcall c).bind fun c' h' => bodyWriter_stuck h' calls

/-- A body with a packet ends in a failure. -/
theorem startResponse_refused (r : Reply) {calls : List BodyCall}
    (hcalls : ∃ call ∈ calls, call.zeroCopyBytes ≠ []) :
    ∃ stop, r.startResponse calls = .error stop ∧ Refused stop := by
  have hbody := bodyWriter_refused (follows_create (r.head.map (List.map some))) hcalls
  rcases hbody.cases with ⟨stop, hstop, hrefused⟩ | ⟨c, -, hfalse⟩
  · refine ⟨stop, ?_, hrefused⟩
    rw [Reply.startResponse, Reply.writeReplyToConnection, hstop]
    rfl
  · exact hfalse.elim

/-- A reply delivers what its body writer writes if and only if all of it is written with copies.
Otherwise the program stops. What is written on `con.out()` is what the connection sends. -/
theorem startResponse_correct (r : Reply) (calls : List BodyCall) :
    (Delivered r calls ↔ ∀ call ∈ calls, call.zeroCopyBytes = []) ∧
      ((∃ call ∈ calls, call.zeroCopyBytes ≠ []) →
        ∃ stop, r.startResponse calls = .error stop ∧ Refused stop) ∧
      ∀ (out : List (List (Option UInt8))) (before : List UInt8) (es : List (Event UInt8))
        (con : Session UInt8), r.startResponse calls = .ok out →
        Guarded Session.step Awaited (Session.create 8192 false true false) es →
        run Session.step (Session.create 8192 false true false) es = some con →
        con.written.map some = before.map some ++ out.flatten → con.inFlight = [] →
        con.stream.buffered = [] → con.chunks.flatten = before.map some ++ out.flatten := by
  refine ⟨⟨fun hdelivered call hmem => ?_, delivered_of_copying r⟩, startResponse_refused r, ?_⟩
  · by_contra hcall
    obtain ⟨out, -, -, hok, -⟩ := hdelivered
    obtain ⟨stop, hstop, -⟩ := startResponse_refused r ⟨call, hmem, hcall⟩
    rw [hok] at hstop
    cases hstop
  · intro out before es con _ hawaited hrun hwritten hinFlight hbuffered
    have horder := ((outputStream_correct (by decide) false true false hawaited).last hrun).order
    rw [hinFlight, hbuffered, List.append_nil, List.append_nil] at horder
    rw [horder, hwritten]

/-- A packet of one byte reaches the `abort()`. -/
theorem packet_not_delivered :
    (⟨text "HTTP/1.1 200 OK", []⟩ : Reply).startResponse [.writePacket [1]] = .error .abort ∧
      ¬ Delivered ⟨text "HTTP/1.1 200 OK", []⟩ [.writePacket [1]] := by
  have hstop : (⟨text "HTTP/1.1 200 OK", []⟩ : Reply).startResponse [.writePacket [1]] =
      .error .abort := by rfl
  refine ⟨hstop, fun ⟨out, body, chunks, hok, _⟩ => ?_⟩
  rw [hstop] at hok
  cases hok

end Netstar.Proofs.Http
