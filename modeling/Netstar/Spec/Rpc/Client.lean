import Mathlib.Logic.Function.Basic
import Netstar.Spec.Rpc.Frame

/-!
# `Netstar.Spec.Rpc.Client`: the calls of a client connection

A call puts its message into `_outgoing_queue` and its reply handler into `_outstanding`. The send
loop, the timers, the cancellable of the call, the replies and the end of the connection remove them,
and each removal that ends a call sets its promise.

Calls are numbered. `replies` and `sends` are the `set_value` and `set_exception` of the reply
promises and of the promises of `send`, in their order. `calls` are the calls that were made, and
`answered` are the reply frames that found their handler. These four are not in the source. Message
ids are integers here: `_message_id` does not overflow.

`crashed` says that a closure has used a handler or a queue entry that is gone.
-/

set_option autoImplicit false

namespace Netstar.Spec.Rpc

/-- The exceptions that a reply can carry. -/
inductive RemoteError where
  | user (what : Bytes)
  | unknownVerb (type : UInt64)
  | unknown
  deriving DecidableEq

/-- `unmarshal_exception`. It has no result if one of the reads throws. -/
def unmarshalException (data : Bytes) : Option RemoteError :=
  if data.length < 8 then none
  else
    let exType := readLe 4 0 data
    let exLen := readLe 4 4 data
    let rest := data.drop 8
    if exType = 0 then
      if rest.length < exLen then none else some (.user (rest.take exLen))
    else if exType = 1 then
      if rest.length < 8 then none else some (.unknownVerb (UInt64.ofNat (readLe 8 0 rest)))
    else some .unknown

/-- What a reply promise is set to. -/
inductive Outcome (V : Type) where
  | value (v : V)
  | remote (e : RemoteError)
  | timeout
  | canceled
  | closed
  deriving DecidableEq

/-- `reply_handler`, with the call whose promise it has. -/
structure Handler (V : Type) where
  id : Int
  call : Nat
  unmarshall : Bytes → Option V
  timer : Bool
  pcancel : Bool

/-- `outgoing_entry`, with the call whose promise it has. -/
structure OutgoingEntry where
  call : Nat
  timer : Bool
  pcancel : Bool
  deriving DecidableEq, Repr

/-- `cancellable`: `cancel_send` is set or not, and `cancel_wait` has a message id. -/
structure Cancellable where
  cancelSend : Bool
  cancelWait : Option Int
  deriving DecidableEq, Repr

/-- Where the send loop is. -/
inductive SendLoop where
  | idle
  | waiting
  | writing (d : OutgoingEntry)
  | done
  deriving DecidableEq, Repr

/-- Where the connection is. In `ended` the receive loop is over, and in `closing` the send loop is
over and its queue is empty. -/
inductive ClientPhase where
  | connecting
  | reading
  | ended
  | stopping
  | closing
  | stopped
  deriving DecidableEq, Repr

/-- A call that was made. `id` is its message id, if it was sent, and `late` says that the connection
had stopped. -/
structure Call (V : Type) where
  id : Option Int
  wait : Bool
  unmarshall : Bytes → Option V
  late : Bool

/-- `client`. -/
structure Client (V : Type) where
  error : Bool
  messageId : Int
  outstanding : List (Handler V)
  outgoingQueue : List OutgoingEntry
  sendLoop : SendLoop
  phase : ClientPhase
  cancels : Nat → Cancellable
  calls : List (Call V)
  replies : List (Nat × Outcome V)
  sends : List Nat
  answered : List (Nat × Int × Bytes)
  crashed : Bool

namespace Client

variable {V : Type}

/-- The constructor. -/
def create : Client V where
  error := false
  messageId := 1
  outstanding := []
  outgoingQueue := []
  sendLoop := .idle
  phase := .connecting
  cancels := fun _ => ⟨false, none⟩
  calls := []
  replies := []
  sends := []
  answered := []
  crashed := false

/-! ### Handlers and queue entries -/

/-- `set_value` or `set_exception` of a reply promise. -/
def resolve (s : Client V) (n : Nat) (o : Outcome V) : Client V :=
  { s with replies := s.replies ++ [(n, o)] }

/-- `pcancel->cancel_wait` of a handler is reset. -/
def resetWait (cancels : Nat → Cancellable) (h : Handler V) : Nat → Cancellable :=
  if h.pcancel then Function.update cancels h.call { cancels h.call with cancelWait := none }
  else cancels

/-- `pcancel->cancel_send` of an entry is reset. -/
def resetSend (cancels : Nat → Cancellable) (e : OutgoingEntry) : Nat → Cancellable :=
  if e.pcancel then Function.update cancels e.call { cancels e.call with cancelSend := false }
  else cancels

/-- `~rcv_reply_base` and `~reply_handler_base`. -/
def dropHandler (s : Client V) (h : Handler V) (done : Bool) : Client V :=
  let s := if done then s else s.resolve h.call .closed
  { s with cancels := resetWait s.cancels h }

/-- `~outgoing_entry`. -/
def dropEntry (s : Client V) (e : OutgoingEntry) : Client V :=
  { s with sends := s.sends ++ [e.call], cancels := resetSend s.cancels e }

/-- `_outstanding[id]->timeout()` or `_outstanding[id]->cancel()`, and `_outstanding.erase(id)`. -/
def failWait (s : Client V) (id : Int) (o : Outcome V) : Client V :=
  match s.outstanding.find? (·.id == id) with
  | some h =>
    dropHandler { s.resolve h.call o with outstanding := s.outstanding.filter (·.id != id) } h true
  | none => { s with crashed := true }

/-- `_outgoing_queue.erase` of the entry of a call. -/
def eraseEntry (s : Client V) (n : Nat) : Client V :=
  match s.outgoingQueue.find? (·.call == n) with
  | some e => dropEntry { s with outgoingQueue := s.outgoingQueue.filter (·.call != n) } e
  | none => { s with crashed := true }

/-! ### Calls -/

/-- `connection::send`. `timeout` says whether the deadline has passed. -/
def send (s : Client V) (n : Nat) (timeout : Option Bool) (cancel : Bool) : Client V :=
  if timeout = some true then { s with sends := s.sends ++ [n] }
  else
    { s with
      outgoingQueue := s.outgoingQueue ++ [{ call := n, timer := timeout.isSome, pcancel := cancel }]
      cancels := if cancel then Function.update s.cancels n { s.cancels n with cancelSend := true }
        else s.cancels }

/-- `client::wait_for_reply`. `emplace` drops the handler if the id is there already. -/
def waitForReply (s : Client V) (h : Handler V) : Client V :=
  let s := if h.pcancel then
      { s with
        cancels := Function.update s.cancels h.call { s.cancels h.call with cancelWait := some h.id } }
    else s
  if s.outstanding.any (·.id == h.id) then s.dropHandler h false
  else { s with outstanding := s.outstanding ++ [h] }

/-- The call is made, and its message id, if it has one, is taken. -/
def addCall (s : Client V) (id : Option Int) (wait : Bool) (unmarshall : Bytes → Option V) :
    Client V :=
  { s with
    messageId := if id.isSome then s.messageId + 1 else s.messageId
    calls := s.calls ++ [⟨id, wait, unmarshall, s.phase = .stopped⟩] }

/-- `send_helper`. -/
def call (s : Client V) (wait : Bool) (unmarshall : Bytes → Option V) (timeout : Option Bool)
    (cancel : Bool) : Client V :=
  let n := s.calls.length
  if s.error then (s.addCall none wait unmarshall).resolve n .closed
  else
    let sent := (s.addCall (some s.messageId) wait unmarshall).send n timeout cancel
    if wait then sent.waitForReply ⟨s.messageId, n, unmarshall, timeout.isSome, cancel⟩ else sent

/-- `cancellable::cancel`. -/
def cancel (s : Client V) (n : Nat) : Client V :=
  let s := if (s.cancels n).cancelSend then s.eraseEntry n else s
  match (s.cancels n).cancelWait with
  | some id => s.failWait id .canceled
  | none => s

/-! ### Replies -/

/-- `std::abs` of a message id. -/
def absId (id : Int) : Int := if id < 0 then -id else id

/-- `operator()` of a handler that was taken out of `_outstanding`, and its destructor. The result is
whether it has thrown. An error reply sets `done` before it is unmarshalled. -/
def handle (s : Client V) (h : Handler V) (id : Int) (payload : Bytes) : Client V × Bool :=
  if id ≥ 0 then
    match h.unmarshall payload with
    | some v => ((s.resolve h.call (.value v)).dropHandler h true, false)
    | none => (s.dropHandler h false, true)
  else
    match unmarshalException payload with
    | some e => ((s.resolve h.call (.remote e)).dropHandler h true, false)
    | none => (s.dropHandler h true, true)

/-- The receive loop goes on, or it is over. -/
def readNext (s : Client V) (ends : Bool) : Client V :=
  { s with phase := if ends || s.error then .ended else .reading }

/-- A frame in the receive loop. `eof` says that the stream has ended after it. -/
def frame (s : Client V) (id : Int) (payload : Bytes) (eof : Bool) : Client V :=
  match s.outstanding.find? (·.id == absId id) with
  | some h =>
    let r := handle
      { s with
        outstanding := s.outstanding.filter (·.id != absId id)
        answered := s.answered ++ [(h.call, id, payload)] } h id payload
    r.1.readNext (r.2 || eof)
  | none => s.readNext eof

/-! ### Steps -/

/-- What can happen to a connection. -/
inductive Event (V : Type) where
  | call (wait : Bool) (unmarshall : Bytes → Option V) (timeout : Option Bool) (cancel : Bool)
  | connected
  | connectFails
  | pop
  | written (ok : Bool)
  | sendLoopEnds
  | sendTimer (n : Nat)
  | waitTimer (id : Int)
  | cancel (n : Nat)
  | frame (id : Int) (payload : Bytes) (eof : Bool)
  | noFrame (throws : Bool)
  | stop
  | dropped
  | queueCleared
  | stopped

/-- The message that the send loop takes from the queue. -/
def pop (s : Client V) : Option (Client V) :=
  match s.sendLoop, s.outgoingQueue with
  | .waiting, d :: queue => some
    { s with
      outgoingQueue := queue
      sendLoop := .writing { d with timer := false }
      cancels := resetSend s.cancels d }
  | _, _ => none

/-- The end of a write. -/
def written (s : Client V) (ok : Bool) : Option (Client V) :=
  match s.sendLoop with
  | .writing d =>
    let error := s.error || !ok
    some (dropEntry
      { s with error := error, sendLoop := if error then .done else .waiting } d)
  | _ => none

/-- `_outgoing_queue.clear()`. -/
def clearQueue (s : Client V) : Client V :=
  s.outgoingQueue.foldl dropEntry { s with outgoingQueue := [] }

/-- `_outstanding.clear()`. -/
def clearOutstanding (s : Client V) : Client V :=
  s.outstanding.foldl (fun s h => s.dropHandler h false) { s with outstanding := [] }

/-- One event. `none` if it cannot happen. -/
def step (s : Client V) : Event V → Option (Client V)
  | .call wait unmarshall timeout cancel => some (s.call wait unmarshall timeout cancel)
  | .connected =>
    if s.phase = .connecting then
      some { s with
        phase := if s.error then .ended else .reading
        sendLoop := if s.error then .done else .waiting }
    else none
  | .connectFails => if s.phase = .connecting then some { s with phase := .ended } else none
  | .pop => s.pop
  | .written ok => s.written ok
  | .sendLoopEnds =>
    if s.sendLoop = .waiting ∧ s.error = true then some { s with sendLoop := .done } else none
  | .sendTimer n =>
    if s.outgoingQueue.any (fun e => e.call == n && e.timer) then some (s.eraseEntry n) else none
  | .waitTimer id =>
    if s.outstanding.any (fun h => h.id == id && h.timer) then some (s.failWait id .timeout)
    else none
  | .cancel n => some (s.cancel n)
  | .frame id payload eof => if s.phase = .reading then some (s.frame id payload eof) else none
  | .noFrame throws =>
    if s.phase = .reading then some { s with error := s.error || !throws, phase := .ended } else none
  | .stop => some { s with error := true }
  | .dropped =>
    if s.phase = .ended then some { s with error := true, phase := .stopping } else none
  | .queueCleared =>
    if s.phase = .stopping ∧ (s.sendLoop = .idle ∨ s.sendLoop = .done) then
      some { s.clearQueue with phase := .closing }
    else none
  | .stopped =>
    if s.phase = .closing then some { s.clearOutstanding with phase := .stopped } else none

/-! ### What the calls get -/

/-- A call that waits for a reply. -/
def Waits (s : Client V) (n : Nat) : Prop :=
  ∃ c, s.calls[n]? = some c ∧ c.wait = true ∧ c.id.isSome = true

/-- A call with a message. -/
def Accepted (s : Client V) (n : Nat) : Prop := ∃ c, s.calls[n]? = some c ∧ c.id.isSome = true

/-- A value is from a reply frame with the id of the call, and a remote exception from one with its
negation. -/
def Answers (s : Client V) (n : Nat) : Outcome V → Prop
  | .value v => ∃ c id payload, s.calls[n]? = some c ∧ c.id = some id ∧
      (n, id, payload) ∈ s.answered ∧ c.unmarshall payload = some v
  | .remote e => ∃ c id payload, s.calls[n]? = some c ∧ c.id = some id ∧
      (n, -id, payload) ∈ s.answered ∧ unmarshalException payload = some e
  | _ => True

/-- What a client promises its callers. A promise is set once, and a frame answers a call at most
once, so that it is the first. `_outstanding` has the calls whose promise is not set, and after the
end of the connection all are set. -/
structure Correct (s : Client V) : Prop where
  safe : s.crashed = false
  once : (s.replies.map Prod.fst).Nodup
  sentOnce : s.sends.Nodup
  first : (s.answered.map Prod.fst).Nodup
  answers : ∀ r ∈ s.replies, s.Answers r.1 r.2
  exactly : ∀ n, (∃ h ∈ s.outstanding, h.call = n) ↔ s.Waits n ∧ n ∉ s.replies.map Prod.fst
  ends : s.phase = .stopped → s.outstanding = [] ∧ ∀ n c, s.calls[n]? = some c →
    (c.wait = true → n ∈ s.replies.map Prod.fst) ∧ (c.id.isSome = true → n ∈ s.sends)
  late : ∀ n c, s.calls[n]? = some c → c.late = true → (n, .closed) ∈ s.replies

/-- An error reply to an outstanding call can be unmarshalled. -/
def Decodable (s : Client V) : Event V → Prop
  | .frame id payload _ => id < 0 → (∃ h ∈ s.outstanding, h.id = absId id) →
      (unmarshalException payload).isSome = true
  | _ => True

end Client

end Netstar.Spec.Rpc
