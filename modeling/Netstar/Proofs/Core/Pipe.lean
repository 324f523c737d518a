import Netstar.Lib.Result
import Netstar.Spec.Core.Pipe

/-!
# `Netstar.Proofs.Core.Pipe`: items in order, then end of file, and nobody is left waiting

While the reader is there, the items written so far are those that it got, those in the buffer and
the one of the write in progress, in this order. The end mark is only put into an empty buffer, so it
is alone there. A reader waits only at an empty buffer with a writer at the other end, and a writer
waits only at a full buffer with a reader at the other end.
-/

set_option autoImplicit false

namespace Netstar.Proofs.Core.Pipe

open Netstar.Lib
open Netstar.Spec.Core
open Netstar.Spec.Core.Pipe
open Netstar.Spec.Core.Queue (Waiter)

variable {α : Type} {s t : Session α}

/-! ### What the fibers see -/

/-- A read gives the unread item or else the next item of the writer, and the end of the file only
when the writer is gone and all its items are read. It blocks only when the writer is there. -/
def ReadOk (unread : Option α) (rest : List α) (writeOpen : Bool) : ReadResult α → Prop
  | .blocked => unread = none ∧ writeOpen = true
  | .item x => unread = some x ∨ unread = none ∧ rest.head? = some x
  | .eof => unread = none ∧ rest = [] ∧ writeOpen = false
  | .failed => False

/-- A write fails exactly when the reader is gone, and the reader takes a blocked write with it. -/
def OutcomeOk : Outcome α → Prop
  | .quiet => True
  | .read unread rest writeOpen result => ReadOk unread rest writeOpen result
  | .write readOpen result => result = .brokenPipe ↔ readOpen = false
  | .closeRead before after => ∀ x, before = .waiting x → after = .failed x

/-- The items in the buffer. -/
def items (s : Session α) : List α := s.bufp.buf.q.filterMap id

/-- The item of the write in progress. -/
def inFlight (s : Session α) : List α := s.bufp.buf.pusher.pending.filterMap id

/-- What is right in a state: no fault, and the reader gets what the writer wrote, in order. -/
structure Correct (s : Session α) : Prop where
  noFault : s.fault = none
  inOrder : s.received <+: s.written
  noLoss : s.bufp.readOpen = true → s.received ++ (items s ++ inFlight s) = s.written
  bounded : s.bufp.buf.q.length ≤ s.bufp.buf.max
  readerFree : s.bufp.writeOpen = false → s.bufp.buf.popper ≠ .waiting ()
  writerFree : s.bufp.readOpen = false → ∀ x, s.bufp.buf.pusher ≠ .waiting x
  outcome : OutcomeOk s.last

/-- An end is destroyed when it has no operation in progress. -/
def IdleEnds (s : Session α) : Event α → Prop
  | .destroyReader => s.bufp.buf.popper = .idle
  | .destroyWriter => s.bufp.buf.pusher = .idle
  | _ => True

/-! ### The invariant -/

/-- The reader at the buffer. -/
def ReaderOk (b : PipeBuffer α) : Waiter Unit → Prop
  | .idle => True
  | .waiting _ => b.readOpen = true ∧ b.writeOpen = true ∧ b.buf.q = []
  | .woken _ => b.readOpen = true ∧ b.buf.q ≠ []
  | .failed _ => False

/-- The writer at the buffer. -/
def WriterOk (b : PipeBuffer α) : Waiter (Option α) → Prop
  | .idle => True
  | .waiting x => b.readOpen = true ∧ b.writeOpen = true ∧ b.buf.q.length = b.buf.max ∧ x.isSome
  | .woken x => b.writeOpen = true ∧ b.buf.q.length < b.buf.max ∧ x.isSome
  | .failed _ => b.readOpen = false ∧ b.writeOpen = true

/-- The items, or the end mark alone. -/
def BufferOk (b : PipeBuffer α) : Prop :=
  (∀ x ∈ b.buf.q, x.isSome) ∨ b.buf.q = [none] ∧ b.writeOpen = false

/-- The invariant of a pipe. -/
structure Inv (s : Session α) : Prop where
  noFault : s.fault = none
  inOrder : s.received <+: s.written
  noLoss : s.bufp.readOpen = true → s.received ++ (items s ++ inFlight s) = s.written
  max_pos : 0 < s.bufp.buf.max
  bounded : s.bufp.buf.q.length ≤ s.bufp.buf.max
  buffer : BufferOk s.bufp
  reader : ReaderOk s.bufp s.bufp.buf.popper
  writer : WriterOk s.bufp s.bufp.buf.pusher
  ex : s.bufp.buf.ex = true → s.bufp.readOpen = false
  freed : s.freed = true → s.bufp.readOpen = false ∧ s.bufp.writeOpen = false
  outcome : OutcomeOk s.last

/-- In a state with the invariant the pipe is right. -/
theorem Inv.correct (h : Inv s) : Correct s := by
  refine ⟨h.noFault, h.inOrder, h.noLoss, h.bounded, fun hclosed hwait => ?_, fun hclosed x hwait => ?_,
    h.outcome⟩
  · have hreader := h.reader
    rw [hwait] at hreader
    rw [hreader.2.1] at hclosed
    cases hclosed
  · have hwriter := h.writer
    rw [hwait] at hwriter
    rw [hwriter.1] at hclosed
    cases hclosed

/-- A new pipe is empty, and both ends are open. -/
theorem Inv.create {size : Nat} (hsize : 1 ≤ size) : Inv (Session.create size : Session α) where
  noFault := rfl
  inOrder := List.nil_prefix
  noLoss := fun _ => rfl
  max_pos := hsize
  bounded := Nat.zero_le _
  buffer := .inl (by simp [Session.create, PipeBuffer.create, Queue.create])
  reader := trivial
  writer := trivial
  ex := (fun htrue => nomatch htrue)
  freed := (fun htrue => nomatch htrue)
  outcome := trivial

/-- What is not read yet. -/
theorem Inv.rest (h : Inv s) (hopen : s.bufp.readOpen = true) : s.rest = items s ++ inFlight s := by
  rw [Session.rest, ← h.noLoss hopen, List.drop_left]

/-- An event begins. -/
theorem Inv.begin (h : Inv s) : Inv { s with last := .quiet } :=
  ⟨h.noFault, h.inOrder, h.noLoss, h.max_pos, h.bounded, h.buffer, h.reader, h.writer, h.ex, h.freed,
    trivial⟩

/-! ### Reads -/

section Reads

variable {β : Type}

/-- The queue after a pop. A pop from a full queue wakes the writer. -/
def popped (b : Queue β) (q : List β) : Queue β :=
  { b with q := q, pusher := if b.q.length = b.max then b.pusher.wake else b.pusher }

/-- The first element of the queue. -/
theorem pop_eq {b : Queue β} {data : β} {q : List β} (hq : b.q = data :: q) :
    b.pop = .ok (popped b q, data) := by
  rw [Queue.pop, popped]
  by_cases hfull : b.q.length = b.max
  · rw [if_pos hfull, if_pos hfull]
    simp only [Queue.notifyNotFull, hq]
  · rw [if_neg hfull, if_neg hfull]
    simp only [hq]

/-- A waiter that is idle. -/
theorem eq_idle {w : Waiter β} (h : w.isIdle = true) : w = .idle := by
  cases w with
  | idle => rfl
  | waiting x => cases h
  | woken x => cases h
  | failed x => cases h

/-- A waiter that is woken is still in its call. -/
theorem pending_wake (w : Waiter β) : w.wake.pending = w.pending := by
  cases w with
  | idle => rfl
  | waiting x => rfl
  | woken x => rfl
  | failed x => rfl

/-- A writer that is gone does nothing. -/
theorem Inv.pusher_idle (h : Inv s) (hclosed : s.bufp.writeOpen = false) :
    s.bufp.buf.pusher = .idle := by
  have hwriter := h.writer
  cases hp : s.bufp.buf.pusher with
  | idle => rfl
  | waiting x =>
    rw [hp] at hwriter
    rw [hwriter.2.1] at hclosed
    cases hclosed
  | woken x =>
    rw [hp] at hwriter
    rw [hwriter.1] at hclosed
    cases hclosed
  | failed x =>
    rw [hp] at hwriter
    rw [hwriter.2] at hclosed
    cases hclosed

/-- The writer after a pop. -/
theorem WriterOk.popped {b : PipeBuffer α} (h : WriterOk b b.buf.pusher) (hopen : b.readOpen = true)
    {data : Option α} {q : List (Option α)} (hq : b.buf.q = data :: q) (popper : Waiter Unit) :
    WriterOk { b with buf := popped { b.buf with popper := popper } q }
      (popped { b.buf with popper := popper } q).pusher := by
  have hlen : b.buf.q.length = q.length + 1 := by rw [hq, List.length_cons]
  show WriterOk _ (if b.buf.q.length = b.buf.max then b.buf.pusher.wake else b.buf.pusher)
  cases hp : b.buf.pusher with
  | idle =>
    split
    · trivial
    · trivial
  | waiting x =>
    rw [hp] at h
    obtain ⟨-, hwrite, hfull, hsome⟩ := h
    rw [if_pos hfull]
    exact ⟨hwrite, show q.length < b.buf.max by omega, hsome⟩
  | woken x =>
    rw [hp] at h
    obtain ⟨hwrite, hroom, hsome⟩ := h
    rw [if_neg (by omega)]
    exact ⟨hwrite, show q.length < b.buf.max by omega, hsome⟩
  | failed x =>
    rw [hp] at h
    rw [h.1] at hopen
    cases hopen

/-- The reader takes the first element of the buffer. -/
theorem Inv.deliver (h : Inv s) (hopen : s.bufp.readOpen = true) {data : Option α}
    {q : List (Option α)} (hq : s.bufp.buf.q = data :: q) :
    Inv (s.deliver (popped { s.bufp.buf with popper := .idle } q) data) := by
  have hlen : s.bufp.buf.q.length = q.length + 1 := by rw [hq, List.length_cons]
  have hbounded := h.bounded
  have hwriter := h.writer.popped hopen hq .idle
  have hflight : inFlight (s.deliver (popped { s.bufp.buf with popper := .idle } q) data) =
      inFlight s := by
    rw [inFlight, Session.deliver.eq_def]
    cases data
    all_goals
      show (if s.bufp.buf.q.length = s.bufp.buf.max then s.bufp.buf.pusher.wake
        else s.bufp.buf.pusher).pending.filterMap id = s.bufp.buf.pusher.pending.filterMap id
      split
      · rw [pending_wake]
      · rfl
  cases data with
  | some x =>
    have horder : s.received ++ (x :: (q.filterMap id ++ inFlight s)) = s.written := by
      have horder := h.noLoss hopen
      rwa [items, hq] at horder
    have hsome : ∀ y ∈ q, y.isSome := by
      rcases h.buffer with hsome | ⟨hmark, -⟩
      · intro y hy
        exact hsome y (by rw [hq]; exact List.mem_cons_of_mem _ hy)
      · rw [hq] at hmark
        cases hmark
    refine ⟨h.noFault, ?_, fun _ => ?_, h.max_pos, ?_, .inl hsome, trivial, hwriter, h.ex, h.freed, ?_⟩
    · refine ⟨q.filterMap id ++ inFlight s, Eq.trans ?_ horder⟩
      show s.received ++ [x] ++ _ = _
      simp
    · show s.received ++ [x] ++ (q.filterMap id ++ _) = s.written
      rw [hflight, ← horder]
      simp
    · show q.length ≤ s.bufp.buf.max
      omega
    · refine .inr ⟨rfl, ?_⟩
      rw [h.rest hopen, items, hq]
      rfl
  | none =>
    -- The end mark is alone, and the writer is gone.
    obtain ⟨hmark, hclosed⟩ : s.bufp.buf.q = [none] ∧ s.bufp.writeOpen = false := by
      rcases h.buffer with hsome | hmark
      · have hnone := hsome none (by rw [hq]; exact List.mem_cons_self)
        cases hnone
      · exact hmark
    have hnil : q = [] := by
      rw [hq] at hmark
      exact (List.cons.inj hmark).2
    have hidle := h.pusher_idle hclosed
    have hitems : items s ++ inFlight s = [] := by
      rw [items, inFlight, hmark, hidle]
      rfl
    refine ⟨h.noFault, h.inOrder, fun _ => ?_, h.max_pos, ?_, .inl (by rw [hnil]; simp [popped, Session.deliver]),
      trivial, hwriter, h.ex, h.freed, rfl, ?_, hclosed⟩
    · have horder := h.noLoss hopen
      rw [hitems] at horder
      show s.received ++ (q.filterMap id ++ _) = s.written
      rw [hflight, hnil, inFlight, hidle]
      exact horder
    · show q.length ≤ s.bufp.buf.max
      omega
    · rw [h.rest hopen]
      exact hitems

/-- A read takes an element, sees the end, or waits. -/
theorem Inv.read (h : Inv s) (hopen : s.bufp.readOpen = true) (hidle : s.bufp.buf.popper = .idle) :
    ∃ t, s.read = .ok t ∧ Inv t := by
  rw [Session.read]
  cases hunread : s.unread with
  | some x =>
    exact ⟨_, rfl, h.noFault, h.inOrder, h.noLoss, h.max_pos, h.bounded, h.buffer, h.reader, h.writer,
      h.ex, h.freed, .inl rfl⟩
  | none =>
    dsimp only
    by_cases hnil : s.bufp.buf.q = []
    · have hempty : s.bufp.buf.empty = true := by
        rw [Queue.empty, hnil]
        rfl
      by_cases hwrite : s.bufp.writeOpen = true
      · rw [if_pos (by rw [PipeBuffer.readable, hwrite]; rfl), Queue.popEventually, if_pos hempty]
        exact ⟨_, rfl, h.noFault, h.inOrder, h.noLoss, h.max_pos, h.bounded, h.buffer,
          ⟨hopen, hwrite, hnil⟩, h.writer, h.ex, h.freed, rfl, hwrite⟩
      · have hclosed : s.bufp.writeOpen = false := by simpa using hwrite
        rw [if_neg (by rw [PipeBuffer.readable, hclosed, hempty]; decide)]
        refine ⟨_, rfl, h.noFault, h.inOrder, h.noLoss, h.max_pos, h.bounded, h.buffer, h.reader,
          h.writer, h.ex, h.freed, rfl, ?_, hclosed⟩
        rw [h.rest hopen, items, inFlight, hnil, h.pusher_idle hclosed]
        rfl
    · obtain ⟨data, q, hq⟩ := List.exists_cons_of_ne_nil hnil
      have hnonempty : s.bufp.buf.empty = false := by
        rw [Queue.empty, hq]
        rfl
      have hbuf : { s.bufp.buf with popper := .idle } = s.bufp.buf := by rw [← hidle]
      have hinv := h.deliver hopen hq
      rw [hbuf] at hinv
      rw [if_pos (by rw [PipeBuffer.readable, hnonempty]; simp), Queue.popEventually,
        if_neg (by rw [hnonempty]; decide), pop_eq hq]
      exact ⟨_, rfl, hinv⟩

/-- The continuation of a read that waited. -/
theorem Inv.resumeRead (h : Inv s) (hwoken : s.bufp.buf.popper = .woken ()) :
    ∃ t, s.resumeRead = .ok t ∧ Inv t := by
  have hreader := h.reader
  rw [hwoken] at hreader
  obtain ⟨hopen, hne⟩ := hreader
  obtain ⟨data, q, hq⟩ := List.exists_cons_of_ne_nil hne
  have hfreed : ¬ s.freed = true := fun hfreed => by
    rw [(h.freed hfreed).1] at hopen
    cases hopen
  have hex : ¬ s.bufp.buf.ex = true := fun hex => by
    rw [h.ex hex] at hopen
    cases hopen
  rw [Session.resumeRead, if_neg hfreed, Queue.resumePop]
  dsimp only
  rw [if_neg hex, pop_eq (b := { s.bufp.buf with popper := .idle }) hq]
  exact ⟨_, rfl, h.deliver hopen hq⟩

end Reads

/-! ### Writes -/

/-- The reader when an element is pushed. -/
theorem ReaderOk.pushed {b b' : PipeBuffer α} {w : Waiter Unit} (h : ReaderOk b w)
    (hopen : b'.readOpen = b.readOpen) (hne : b'.buf.q ≠ []) : ReaderOk b' w.wake := by
  cases w with
  | idle => trivial
  | waiting u => exact ⟨hopen.trans h.1, hne⟩
  | woken u => exact ⟨hopen.trans h.1, hne⟩
  | failed u => exact h

/-- After the writer closed nothing is pushed. -/
theorem BufferOk.pushed {b : PipeBuffer α} (h : BufferOk b) (hopen : b.writeOpen = true)
    {data : Option α} (hdata : data.isSome) : ∀ x ∈ b.buf.q ++ [data], x.isSome := by
  intro x hx
  rcases h with hsome | ⟨-, hclosed⟩
  · rcases List.mem_append.mp hx with hx | hx
    · exact hsome x hx
    · obtain rfl := List.mem_singleton.mp hx
      exact hdata
  · rw [hopen] at hclosed
    cases hclosed

/-- A write puts its element into the queue, or waits for room. -/
theorem Inv.write (h : Inv s) (hopen : s.bufp.writeOpen = true) (hidle : s.bufp.buf.pusher = .idle)
    (data : α) : Inv (s.write data) := by
  have hflight : inFlight s = [] := by
    rw [inFlight, hidle]
    rfl
  have hbounded := h.bounded
  rw [Session.write, PipeBuffer.writeable]
  by_cases hread : s.bufp.readOpen = true
  · have horder := h.noLoss hread
    rw [hflight, List.append_nil] at horder
    have hpre : s.received <+: s.written ++ [data] := h.inOrder.trans (List.prefix_append _ _)
    have houtcome : ∀ b : Bool, OutcomeOk (α := α) (.write s.bufp.readOpen (if b then .done else .blocked)) := by
      intro b
      rw [OutcomeOk, hread]
      cases b <;> simp
    rw [if_pos hread, Queue.pushEventually]
    by_cases hfull : s.bufp.buf.full = true
    · rw [if_pos hfull]
      -- A full queue keeps the element with the writer, behind those in the queue.
      have hmax : s.bufp.buf.max ≤ s.bufp.buf.q.length := by simpa [Queue.full] using hfull
      refine ⟨h.noFault, hpre, fun _ => ?_, h.max_pos, h.bounded, h.buffer, h.reader,
        ⟨hread, hopen, Nat.le_antisymm hbounded hmax, rfl⟩, h.ex, h.freed, houtcome false⟩
      show s.received ++ (items s ++ [data]) = s.written ++ [data]
      rw [← horder, List.append_assoc]
    · rw [if_neg hfull]
      have hroom : s.bufp.buf.q.length < s.bufp.buf.max := by simpa [Queue.full] using hfull
      refine ⟨h.noFault, hpre, fun _ => ?_, h.max_pos, ?_, .inl (h.buffer.pushed hopen rfl),
        h.reader.pushed rfl (by simp [Queue.notifyNotEmpty]), ?_, h.ex, h.freed, houtcome true⟩
      · show s.received ++ ((s.bufp.buf.q ++ [some data]).filterMap id ++ inFlight s) = s.written ++ [data]
        rw [hflight, ← horder, items]
        simp
      · show (s.bufp.buf.q ++ [some data]).length ≤ s.bufp.buf.max
        rw [List.length_append]
        exact hroom
      · show WriterOk _ s.bufp.buf.pusher
        rw [hidle]
        trivial
  · -- The reader is gone: the write fails and nothing is taken.
    rw [if_neg hread]
    refine ⟨h.noFault, h.inOrder, h.noLoss, h.max_pos, h.bounded, h.buffer, h.reader, h.writer, h.ex,
      h.freed, ?_⟩
    simpa [OutcomeOk] using hread

/-- The continuation of a write that waited. -/
theorem Inv.resumeWrite (h : Inv s) {data : Option α} (hwoken : s.bufp.buf.pusher = .woken data) :
    Inv { s with bufp.buf := s.bufp.buf.resumePush data, last := .quiet } := by
  have hwriter := h.writer
  rw [hwoken] at hwriter
  obtain ⟨hopen, hroom, hsome⟩ := hwriter
  refine ⟨h.noFault, h.inOrder, fun hread => ?_, h.max_pos, ?_, .inl (h.buffer.pushed hopen hsome),
    h.reader.pushed rfl (by simp [Queue.resumePush, Queue.notifyNotEmpty]), trivial, h.ex, h.freed, trivial⟩
  · have horder := h.noLoss hread
    rw [items, inFlight, hwoken] at horder
    show s.received ++ ((s.bufp.buf.q ++ [data]).filterMap id ++ []) = s.written
    rw [← horder]
    simp [Waiter.pending]
  · show (s.bufp.buf.q ++ [data]).length ≤ s.bufp.buf.max
    rw [List.length_append]
    exact hroom

/-! ### Destruction -/

/-- The reader goes away between two reads. -/
theorem Inv.destroyReader (h : Inv s) (hidle : s.bufp.buf.popper = .idle) :
    Inv { s with
      bufp := s.bufp.closeRead.1
      unread := none
      freed := s.bufp.closeRead.2
      last := .closeRead s.bufp.buf.pusher s.bufp.closeRead.1.buf.pusher } := by
  have hwriter := h.writer
  rw [PipeBuffer.closeRead]
  -- A full queue may have a writer that waits, and the abort fails it.
  by_cases hfull : s.bufp.buf.full = true
  · have hmax : s.bufp.buf.max ≤ s.bufp.buf.q.length := by simpa [Queue.full] using hfull
    rw [if_pos hfull]
    refine ⟨h.noFault, h.inOrder, (fun hopen => nomatch hopen), h.max_pos, Nat.zero_le _,
      .inl (by simp [Queue.abort]), ?_, ?_, fun _ => rfl, fun hfree => ⟨rfl, by simpa using hfree⟩, ?_⟩
    · show ReaderOk _ s.bufp.buf.popper.fail
      rw [hidle]
      trivial
    · show WriterOk _ s.bufp.buf.pusher.fail
      cases hp : s.bufp.buf.pusher with
      | idle => trivial
      | waiting x =>
        rw [hp] at hwriter
        exact ⟨rfl, hwriter.2.1⟩
      | woken x =>
        rw [hp] at hwriter
        have hroom := hwriter.2.1
        omega
      | failed x =>
        rw [hp] at hwriter
        exact ⟨rfl, hwriter.2⟩
    · intro x hx
      show s.bufp.buf.pusher.fail = _
      rw [hx]
      rfl
  · have hroom : s.bufp.buf.q.length < s.bufp.buf.max := by simpa [Queue.full] using hfull
    rw [if_neg hfull]
    refine ⟨h.noFault, h.inOrder, (fun hopen => nomatch hopen), h.max_pos, h.bounded, h.buffer, ?_, ?_,
      fun _ => rfl, fun hfree => ⟨rfl, by simpa using hfree⟩, ?_⟩
    · show ReaderOk _ s.bufp.buf.popper
      rw [hidle]
      trivial
    · show WriterOk _ s.bufp.buf.pusher
      cases hp : s.bufp.buf.pusher with
      | idle => trivial
      | waiting x =>
        rw [hp] at hwriter
        -- A writer waits at a full queue only.
        have hmax := hwriter.2.2.1
        omega
      | woken x =>
        rw [hp] at hwriter
        exact hwriter
      | failed x =>
        rw [hp] at hwriter
        exact ⟨rfl, hwriter.2⟩
    · intro x hx
      rw [hx] at hwriter
      have hmax := hwriter.2.2.1
      omega

/-- The writer goes away between two writes. -/
theorem Inv.destroyWriter (h : Inv s) (hidle : s.bufp.buf.pusher = .idle) :
    Inv { s with bufp := s.bufp.closeWrite.1, freed := s.bufp.closeWrite.2, last := .quiet } := by
  have hmax := h.max_pos
  rw [PipeBuffer.closeWrite]
  by_cases hnil : s.bufp.buf.q = []
  · -- An empty queue takes the mark of the end, so that a waiting reader wakes.
    have hroom : s.bufp.buf.q.length < s.bufp.buf.max := by
      rw [hnil]
      exact hmax
    rw [if_pos (by rw [Queue.empty, hnil]; rfl), Queue.push, if_pos hroom]
    refine ⟨h.noFault, h.inOrder, fun hopen => ?_, hmax, ?_, .inr ⟨?_, rfl⟩,
      h.reader.pushed rfl (by simp [Queue.notifyNotEmpty]), ?_, h.ex,
      fun hfree => ⟨by simpa using hfree, rfl⟩, trivial⟩
    · have horder := h.noLoss hopen
      rw [items, hnil] at horder
      show s.received ++ ((s.bufp.buf.q ++ [none]).filterMap id ++ inFlight s) = s.written
      rw [hnil]
      exact horder
    · show (s.bufp.buf.q ++ [none]).length ≤ s.bufp.buf.max
      rw [hnil]
      exact hmax
    · show s.bufp.buf.q ++ [none] = [none]
      rw [hnil]
      rfl
    · show WriterOk _ s.bufp.buf.pusher
      rw [hidle]
      trivial
  · -- Otherwise the reader finds the end when it has taken what is there.
    rw [if_neg (by simpa [Queue.empty] using hnil)]
    refine ⟨h.noFault, h.inOrder, h.noLoss, hmax, h.bounded, ?_, ?_, ?_, h.ex,
      fun hfree => ⟨by simpa using hfree, rfl⟩, trivial⟩
    · exact h.buffer.imp id fun hmark => ⟨hmark.1, rfl⟩
    · have hreader := h.reader
      show ReaderOk _ s.bufp.buf.popper
      cases hp : s.bufp.buf.popper with
      | idle => trivial
      | waiting u =>
        rw [hp] at hreader
        exact absurd hreader.2.2 hnil
      | woken u =>
        rw [hp] at hreader
        exact hreader
      | failed u =>
        rw [hp] at hreader
        exact hreader
    · show WriterOk _ s.bufp.buf.pusher
      rw [hidle]
      trivial

/-! ### Runs -/

/-- A call of an end that is idle has no fault and keeps the invariant. -/
theorem Inv.perform (h : Inv s) (hlast : s.last = .quiet) {e : Event α} (hidle : IdleEnds s e)
    {r : Except PipeFault (Session α)} (hperform : s.perform e = some r) : ∃ t, r = .ok t ∧ Inv t := by
  cases e with
  | write data =>
    rw [Session.perform] at hperform
    split at hperform
    · rename_i hcond
      rw [Bool.and_eq_true] at hcond
      cases hperform
      exact ⟨_, rfl, h.write hcond.1 (eq_idle hcond.2) data⟩
    · cases hperform
  | read =>
    rw [Session.perform] at hperform
    split at hperform
    · rename_i hcond
      rw [Bool.and_eq_true] at hcond
      cases hperform
      exact h.read hcond.1 (eq_idle hcond.2)
    · cases hperform
  | unread item =>
    rw [Session.perform] at hperform
    split at hperform
    · cases hperform
      exact ⟨_, rfl, h.noFault, h.inOrder, h.noLoss, h.max_pos, h.bounded, h.buffer, h.reader, h.writer,
        h.ex, h.freed, h.outcome⟩
    · cases hperform
  | destroyReader =>
    rw [Session.perform] at hperform
    split at hperform
    · cases hperform
      exact ⟨_, rfl, h.destroyReader hidle⟩
    · cases hperform
  | destroyWriter =>
    rw [Session.perform] at hperform
    split at hperform
    · cases hperform
      have hinv := h.destroyWriter hidle
      rw [← hlast] at hinv
      exact ⟨_, rfl, hinv⟩
    · cases hperform
  | resumeRead =>
    rw [Session.perform] at hperform
    split at hperform
    · rename_i hwoken
      cases hperform
      exact h.resumeRead hwoken
    · rename_i hfailed
      -- A reader that waits is never failed: nothing aborts the queue while it does.
      have hreader := h.reader
      rw [hfailed] at hreader
      exact hreader.elim
    · cases hperform
  | resumeWrite =>
    rw [Session.perform] at hperform
    split at hperform
    · rename_i data hwoken
      cases hperform
      have hwriter := h.writer
      rw [hwoken] at hwriter
      -- A woken writer has been served by a reader, so that end is open and the buffer is there.
      have hfreed : ¬ s.freed = true := fun hfreed => by
        have hopen := hwriter.1
        rw [(h.freed hfreed).2] at hopen
        cases hopen
      have hinv := h.resumeWrite hwoken
      rw [← hlast] at hinv
      rw [if_neg hfreed]
      exact ⟨_, rfl, hinv⟩
    · rename_i x hfailed
      cases hperform
      have hwriter := h.writer
      rw [hfailed] at hwriter
      -- The reader is gone: the data is dropped, which `noLoss` allows only in this case.
      refine ⟨_, rfl, h.noFault, h.inOrder, fun hopen => ?_, h.max_pos, h.bounded, h.buffer, h.reader,
        trivial, h.ex, h.freed, fun _ => hwriter.1, fun _ => rfl⟩
      have hclosed := hwriter.1
      rw [show s.bufp.readOpen = true from hopen] at hclosed
      cases hclosed
    · cases hperform

/-- Every step keeps the invariant. -/
theorem Inv.step (h : Inv s) {e : Event α} (hidle : IdleEnds s e) (hstep : s.step e = some t) : Inv t := by
  rw [Session.step] at hstep
  split at hstep
  · cases hstep
  · cases hperform : { s with last := .quiet }.perform e with
    | none =>
      rw [hperform] at hstep
      cases hstep
    | some r =>
      obtain ⟨t', rfl, hinv⟩ := h.begin.perform rfl (by cases e <;> exact hidle) hperform
      rw [hperform] at hstep
      cases hstep
      exact hinv

/-- A pipe hands over its items in order and then the end of the file, and no end is left waiting, in
every run in which an end is destroyed only when it has no operation in progress. -/
theorem pipe_correct {size : Nat} (hsize : 1 ≤ size) {es : List (Event α)}
    (hidle : Guarded Session.step IdleEnds (Session.create size) es) :
    Always Session.step Correct (Session.create size) es :=
  always_of_guarded Inv (fun _ h => h.correct) (fun _ _ _ h hok hstep => h.step hok hstep)
    (Inv.create hsize) hidle

/-- A write waits at a full pipe, the reader takes an item and goes away before the write goes on. -/
theorem pipe_correct_reader_leaves : Always Session.step Correct (Session.create 1)
    [.write 7, .write 8, .read, .destroyReader, .resumeWrite, .write 9, .destroyWriter] := by
  refine pipe_correct (by decide) ?_
  intro s₁ h₁
  cases h₁
  refine ⟨trivial, fun s₂ h₂ => ?_⟩
  cases h₂
  refine ⟨trivial, fun s₃ h₃ => ?_⟩
  cases h₃
  refine ⟨trivial, fun s₄ h₄ => ?_⟩
  cases h₄
  refine ⟨rfl, fun s₅ h₅ => ?_⟩
  cases h₅
  refine ⟨trivial, fun s₆ h₆ => ?_⟩
  cases h₆
  refine ⟨trivial, fun s₇ h₇ => ?_⟩
  cases h₇
  exact ⟨rfl, trivial⟩

/-- The writer is destroyed while its write waits: the reader sees the end of the file before the last
item. -/
theorem eof_before_last_item : ¬ Always Session.step Correct (Session.create 1)
    [.write 7, .write 8, .destroyWriter, .read, .read] := by
  intro h
  have hlast := ((((h.2 _ rfl).2 _ rfl).2 _ rfl).2 _ rfl).2 _ rfl
  exact absurd hlast.outcome.2.1 (by decide)

end Netstar.Proofs.Core.Pipe
