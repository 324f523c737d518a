import Netstar.Lib.Run

/-!
# `Netstar.Spec.Core.Pipe`: `queue`, `pipe_buffer` and the two ends of a `pipe`

`_not_empty` and `_not_full` are engaged exactly while somebody waits for them, so they are the
`waiting` state of `popper` and `pusher`. A promise that was fulfilled leaves a continuation that
runs later: `woken`, or `failed` when the promise got an exception.

An end of the pipe exists as long as its flag in the buffer is set. Its destructor clears the flag,
and the second destructor frees the buffer. `Session` keeps the items that were written while the
reader was there, the items that the reader got from the buffer, and what the last event gave.
-/

set_option autoImplicit false

namespace Netstar.Spec.Core

/-- Why the program stops. -/
inductive PipeFault where
  | emptyPop
  | useAfterFree
  deriving DecidableEq, Repr

namespace Queue

/-- A fiber at a promise, with what its continuation holds. -/
inductive Waiter (γ : Type) where
  | idle
  | waiting (x : γ)
  | woken (x : γ)
  | failed (x : γ)
  deriving DecidableEq, Repr

namespace Waiter

variable {γ : Type}

/-- Nothing is in progress. -/
def isIdle : Waiter γ → Bool
  | .idle => true
  | _ => false

/-- `set_value`, when somebody waits. -/
def wake : Waiter γ → Waiter γ
  | .waiting x => .woken x
  | w => w

/-- `set_exception`, when somebody waits. -/
def fail : Waiter γ → Waiter γ
  | .waiting x => .failed x
  | w => w

/-- What the continuation still has to do. -/
def pending : Waiter γ → List γ
  | .waiting x => [x]
  | .woken x => [x]
  | _ => []

end Waiter

end Queue

/-- `queue`. -/
structure Queue (β : Type) where
  q : List β
  max : Nat
  popper : Queue.Waiter Unit
  pusher : Queue.Waiter β
  ex : Bool

namespace Queue

variable {β : Type}

/-- `queue(size)`. -/
def create (size : Nat) : Queue β := ⟨[], size, .idle, .idle, false⟩

/-- `empty`. -/
def empty (s : Queue β) : Bool := s.q.isEmpty

/-- `full`. -/
def full (s : Queue β) : Bool := s.max ≤ s.q.length

/-- `notify_not_empty`. -/
def notifyNotEmpty (s : Queue β) : Queue β := { s with popper := s.popper.wake }

/-- `notify_not_full`. -/
def notifyNotFull (s : Queue β) : Queue β := { s with pusher := s.pusher.wake }

/-- `push`. -/
def push (s : Queue β) (a : β) : Queue β × Bool :=
  if s.q.length < s.max then ({ s with q := s.q ++ [a] }.notifyNotEmpty, true) else (s, false)

/-- `pop`. -/
def pop (s : Queue β) : Except PipeFault (Queue β × β) :=
  let s := if s.q.length = s.max then s.notifyNotFull else s
  match s.q with
  | [] => .error .emptyPop
  | data :: q => .ok ({ s with q := q }, data)

/-- `pop_eventually`, which waits when there is no element. -/
def popEventually (s : Queue β) : Except PipeFault (Queue β × Option β) :=
  if s.empty then .ok ({ s with popper := .waiting () }, none)
  else do
    let (s, data) ← s.pop
    return (s, some data)

/-- The continuation of `pop_eventually`, `none` when it returns `_ex`. -/
def resumePop (s : Queue β) : Except PipeFault (Queue β × Option β) :=
  let s := { s with popper := .idle }
  if s.ex then .ok (s, none)
  else do
    let (s, data) ← s.pop
    return (s, some data)

/-- `push_eventually`, which waits when there is no room. -/
def pushEventually (s : Queue β) (data : β) : Queue β × Bool :=
  if s.full then ({ s with pusher := .waiting data }, false)
  else ({ s with q := s.q ++ [data] }.notifyNotEmpty, true)

/-- The continuation of `push_eventually`. -/
def resumePush (s : Queue β) (data : β) : Queue β :=
  { s with pusher := .idle, q := s.q ++ [data] }.notifyNotEmpty

/-- `abort`. -/
def abort (s : Queue β) : Queue β :=
  { s with q := [], ex := true, pusher := s.pusher.fail, popper := s.popper.fail }

end Queue

/-- `pipe_buffer`. -/
structure PipeBuffer (α : Type) where
  buf : Queue (Option α)
  readOpen : Bool
  writeOpen : Bool

namespace PipeBuffer

variable {α : Type}

/-- `pipe_buffer(size)`. -/
def create (size : Nat) : PipeBuffer α := ⟨.create size, true, true⟩

/-- `readable`. -/
def readable (b : PipeBuffer α) : Bool := b.writeOpen || !b.buf.empty

/-- `writeable`. -/
def writeable (b : PipeBuffer α) : Bool := b.readOpen

/-- `close_read`. -/
def closeRead (b : PipeBuffer α) : PipeBuffer α × Bool :=
  let b := if b.buf.full then { b with buf := b.buf.abort } else b
  ({ b with readOpen := false }, !b.writeOpen)

/-- `close_write`. -/
def closeWrite (b : PipeBuffer α) : PipeBuffer α × Bool :=
  let b := if b.buf.empty then { b with buf := (b.buf.push none).1 } else b
  ({ b with writeOpen := false }, !b.readOpen)

end PipeBuffer

namespace Pipe

variable {α : Type}

/-- What a read gives. -/
inductive ReadResult (α : Type) where
  | blocked
  | item (x : α)
  | eof
  | failed
  deriving DecidableEq, Repr

/-- What a write gives. -/
inductive WriteResult where
  | blocked
  | done
  | brokenPipe
  deriving DecidableEq, Repr

/-- What an event gives, with what was so before it: for a read the unread item, the items that were
written and not read, and whether the writer was there; for a write whether the reader was there; for
the destruction of the reader the write in progress. -/
inductive Outcome (α : Type) where
  | quiet
  | read (unread : Option α) (rest : List α) (writeOpen : Bool) (result : ReadResult α)
  | write (readOpen : Bool) (result : WriteResult)
  | closeRead (before after : Queue.Waiter (Option α))

/-- Both ends of a pipe. -/
structure Session (α : Type) where
  bufp : PipeBuffer α
  unread : Option α
  freed : Bool
  written : List α
  received : List α
  last : Outcome α
  fault : Option PipeFault

/-- What the two fibers do. -/
inductive Event (α : Type) where
  | write (data : α)
  | read
  | unread (item : α)
  | destroyReader
  | destroyWriter
  | resumeRead
  | resumeWrite
  deriving DecidableEq, Repr

namespace Session

/-- A pipe before the first event. -/
def create (size : Nat) : Session α := ⟨.create size, none, false, [], [], .quiet, none⟩

/-- The items that were written and not read. -/
def rest (s : Session α) : List α := s.written.drop s.received.length

/-- `pipe_reader::read` took an element from the buffer. -/
def deliver (s : Session α) (buf : Queue (Option α)) (data : Option α) : Session α :=
  let t := { s with bufp.buf := buf }
  match data with
  | some x => { t with
      received := s.received ++ [x]
      last := .read none s.rest s.bufp.writeOpen (.item x) }
  | none => { t with last := .read none s.rest s.bufp.writeOpen .eof }

/-- `pipe_reader::read`. -/
def read (s : Session α) : Except PipeFault (Session α) :=
  match s.unread with
  -- What was unread comes first, without a look at the queue.
  | some x => .ok { s with
      unread := none
      last := .read (some x) s.rest s.bufp.writeOpen (.item x) }
  | none =>
    if s.bufp.readable then do
      let (buf, data) ← s.bufp.buf.popEventually
      match data with
      | some data => return s.deliver buf data
      | none => return { s with
          bufp.buf := buf
          last := .read none s.rest s.bufp.writeOpen .blocked }
    else .ok { s with last := .read none s.rest s.bufp.writeOpen .eof }

/-- The continuation of a read that waited. -/
def resumeRead (s : Session α) : Except PipeFault (Session α) :=
  if s.freed then .error .useAfterFree
  else do
    let (buf, data) ← s.bufp.buf.resumePop
    match data with
    | some data => return s.deliver buf data
    | none => return { s with
        bufp.buf := buf
        last := .read none s.rest s.bufp.writeOpen .failed }

/-- `pipe_writer::write`. -/
def write (s : Session α) (data : α) : Session α :=
  if s.bufp.writeable then
    let (buf, done) := s.bufp.buf.pushEventually (some data)
    { s with
      bufp.buf := buf
      written := s.written ++ [data]
      last := .write s.bufp.readOpen (if done then .done else .blocked) }
  else { s with last := .write s.bufp.readOpen .brokenPipe }

/-- One event, when it can happen: an end that exists has at most one operation in progress. -/
def perform (s : Session α) : Event α → Option (Except PipeFault (Session α))
  | .write data =>
    if s.bufp.writeOpen && s.bufp.buf.pusher.isIdle then some (.ok (s.write data)) else none
  | .read => if s.bufp.readOpen && s.bufp.buf.popper.isIdle then some s.read else none
  | .unread item =>
    if s.bufp.readOpen then some (.ok { s with unread := some (s.unread.getD item) }) else none
  | .destroyReader =>
    if s.bufp.readOpen then
      let (bufp, free) := s.bufp.closeRead
      some (.ok { s with
        bufp := bufp
        unread := none
        freed := free
        last := .closeRead s.bufp.buf.pusher bufp.buf.pusher })
    else none
  | .destroyWriter =>
    if s.bufp.writeOpen then
      let (bufp, free) := s.bufp.closeWrite
      some (.ok { s with bufp := bufp, freed := free })
    else none
  | .resumeRead =>
    match s.bufp.buf.popper with
    | .woken _ => some s.resumeRead
    | .failed _ => some (.ok { s with
        bufp.buf.popper := .idle
        last := .read none s.rest s.bufp.writeOpen .failed })
    | _ => none
  | .resumeWrite =>
    match s.bufp.buf.pusher with
    | .woken data =>
      some (if s.freed then .error .useAfterFree
        else .ok { s with bufp.buf := s.bufp.buf.resumePush data })
    | .failed _ => some (.ok { s with
        bufp.buf.pusher := .idle
        last := .write s.bufp.readOpen .brokenPipe })
    | _ => none

/-- One event. -/
def step (s : Session α) (e : Event α) : Option (Session α) :=
  if s.fault.isSome then none
  else
    match { s with last := .quiet }.perform e with
    | none => none
    | some (.ok t) => some t
    | some (.error f) => some { s with fault := some f }

end Session

end Pipe

end Netstar.Spec.Core
