import Mathlib.Logic.Function.Basic

/-!
# `Netstar.Spec.Rpc.BackPointers`: cancellables and what they point at

`cancellable`, `outgoing_entry` and `reply_handler_base` as objects that point at each other. An object
is a number: `self` of a queue entry, the message id of a handler, which stays where it is, and the
place of a cancellable. A new place can be one that was free again, but an entry that is moved is a new
object.

What the calls send and get is left out. `undefined` says that an object was used that is gone.
-/

set_option autoImplicit false

namespace Netstar.Spec.Rpc.BackPointers

/-- `cancellable`. A closure is the entry or the message id that it has captured, and a back pointer is
the entry or the handler whose `pcancel` it designates. -/
structure Cancellable where
  cancelSend : Option Nat
  cancelWait : Option Nat
  sendBackPointer : Option Nat
  waitBackPointer : Option Nat
  deriving DecidableEq, Repr

/-- A cancellable after the default constructor, and one that was moved from. -/
def Cancellable.empty : Cancellable := ⟨none, none, none, none⟩

/-- `outgoing_entry` with its promise. -/
structure OutgoingEntry where
  self : Nat
  timer : Bool
  pcancel : Option Nat
  deriving DecidableEq, Repr

/-- `reply_handler_base`. -/
structure ReplyHandler where
  id : Nat
  timer : Bool
  pcancel : Option Nat
  deriving DecidableEq, Repr

/-- `client`. `writing` is the entry in the continuation of the write, and `nextSelf` is a number that
no entry has had. -/
structure Connection where
  error : Bool
  messageId : Nat
  outgoingQueue : List OutgoingEntry
  writing : Option OutgoingEntry
  outstanding : List ReplyHandler
  cancellables : Nat → Option Cancellable
  nextSelf : Nat
  undefined : Bool

namespace Connection

/-- The constructor, when there are no cancellables yet. -/
def create : Connection where
  error := false
  messageId := 1
  outgoingQueue := []
  writing := none
  outstanding := []
  cancellables := fun _ => none
  nextSelf := 0
  undefined := false

/-! ### Writes through pointers -/

/-- A write to `*pcancel`. -/
def modify (s : Connection) (pcancel : Option Nat) (f : Cancellable → Cancellable) : Connection :=
  match pcancel with
  | none => s
  | some c =>
    match s.cancellables c with
    | some x => { s with cancellables := Function.update s.cancellables c (some (f x)) }
    | none => { s with undefined := true }

/-- `*send_back_pointer = y`. -/
def writeSendBack (s : Connection) (p : Option Nat) (y : Nat) : Connection :=
  match p with
  | none => s
  | some i =>
    if s.outgoingQueue.any (·.self == i) then
      { s with outgoingQueue :=
          s.outgoingQueue.map fun e => if e.self = i then { e with pcancel := some y } else e }
    else if s.writing.any (·.self == i) then
      { s with writing := s.writing.map fun d => { d with pcancel := some y } }
    else { s with undefined := true }

/-- `*wait_back_pointer = y`. -/
def writeWaitBack (s : Connection) (p : Option Nat) (y : Nat) : Connection :=
  match p with
  | none => s
  | some id =>
    if s.outstanding.any (·.id == id) then
      { s with outstanding :=
          s.outstanding.map fun h => if h.id = id then { h with pcancel := some y } else h }
    else { s with undefined := true }

/-! ### Entries and handlers -/

/-- `~outgoing_entry` of an entry that has its promise. -/
def dropEntry (s : Connection) (e : OutgoingEntry) : Connection :=
  s.modify e.pcancel fun x => { x with cancelSend := none, sendBackPointer := none }

/-- `~reply_handler_base`. -/
def dropHandler (s : Connection) (h : ReplyHandler) : Connection :=
  s.modify h.pcancel fun x => { x with cancelWait := none, waitBackPointer := none }

/-- `_outgoing_queue.erase(it)`. -/
def eraseEntry (s : Connection) (i : Nat) : Connection :=
  match s.outgoingQueue.find? (·.self == i) with
  | some e => dropEntry { s with outgoingQueue := s.outgoingQueue.filter (·.self != i) } e
  | none => { s with undefined := true }

/-- A handler is taken out of `_outstanding`, used and destroyed. -/
def eraseHandler (s : Connection) (id : Nat) : Connection :=
  match s.outstanding.find? (·.id == id) with
  | some h => dropHandler { s with outstanding := s.outstanding.filter (·.id != id) } h
  | none => { s with undefined := true }

/-- `connection::send`. `timeout` says whether the deadline has passed. -/
def send (s : Connection) (timeout : Option Bool) (cancel : Option Nat) : Connection :=
  if timeout = some true then s
  else
    let i := s.nextSelf
    modify
      { s with
        outgoingQueue := s.outgoingQueue ++ [⟨i, timeout.isSome, cancel⟩]
        nextSelf := i + 1 }
      cancel fun x => { x with cancelSend := some i, sendBackPointer := some i }

/-- `client::wait_for_reply`. -/
def waitForReply (s : Connection) (id : Nat) (timeout : Option Bool) (cancel : Option Nat) :
    Connection :=
  let s := s.modify cancel fun x => { x with cancelWait := some id, waitBackPointer := some id }
  if s.outstanding.any (·.id == id) then s.dropHandler ⟨id, timeout.isSome, cancel⟩
  else { s with outstanding := s.outstanding ++ [⟨id, timeout.isSome, cancel⟩] }

/-- `send_helper`. -/
def call (s : Connection) (wait : Bool) (timeout : Option Bool) (cancel : Option Nat) : Connection :=
  if s.error then s
  else
    let id := s.messageId
    let sent := { s with messageId := id + 1 }.send timeout cancel
    if wait then sent.waitForReply id timeout cancel else sent

/-! ### Cancellables -/

/-- `cancellable::cancel`. The first closure can change the second. -/
def cancel (s : Connection) (c : Nat) : Connection :=
  let s := match (s.cancellables c).bind (·.cancelSend) with
    | some i => s.eraseEntry i
    | none => s
  match (s.cancellables c).bind (·.cancelWait) with
  | some id => s.eraseHandler id
  | none => s

/-- `~cancellable`. -/
def destroy (s : Connection) (c : Nat) : Connection :=
  let s := s.cancel c
  { s with cancellables := Function.update s.cancellables c none }

/-- `cancellable(cancellable&& x)`, at the place `y`. -/
def moveTo (s : Connection) (x y : Nat) : Connection :=
  match s.cancellables x with
  | none => { s with undefined := true }
  | some c =>
    let s := (s.writeSendBack c.sendBackPointer y).writeWaitBack c.waitBackPointer y
    { s with cancellables :=
        Function.update (Function.update s.cancellables y (some c)) x (some Cancellable.empty) }

/-- `operator=(cancellable&& x)` of `y`. -/
def assign (s : Connection) (x y : Nat) : Connection :=
  if x = y then s else (s.destroy y).moveTo x y

/-! ### Steps -/

/-- What can happen. The entry of a timer and the message id of a reply are numbers here. -/
inductive Event where
  | construct (c : Nat)
  | move (x y : Nat)
  | assign (x y : Nat)
  | destroy (c : Nat)
  | cancel (c : Nat)
  | call (wait : Bool) (timeout : Option Bool) (cancel : Option Nat)
  | pop
  | written
  | sendTimer (i : Nat)
  | waitTimer (id : Nat)
  | reply (id : Nat)
  | fails
  | clearQueue
  | clearOutstanding
  deriving DecidableEq, Repr

/-- The entries that exist. -/
def entries (s : Connection) : List OutgoingEntry := s.outgoingQueue ++ s.writing.toList

/-- No call uses the cancellable. -/
def Unused (s : Connection) (c : Nat) : Prop :=
  (∀ e ∈ s.entries, e.pcancel ≠ some c) ∧ ∀ h ∈ s.outstanding, h.pcancel ≠ some c

/-- Whether a cancellable is unused can be computed. -/
instance (s : Connection) (c : Nat) : Decidable (s.Unused c) :=
  inferInstanceAs (Decidable (_ ∧ _))

/-- The send loop moves the first entry out of the queue. -/
def pop (s : Connection) : Option Connection :=
  match s.writing, s.outgoingQueue with
  | none, e :: queue => some (modify
      { s with
        outgoingQueue := queue
        writing := some { e with self := s.nextSelf, timer := false }
        nextSelf := s.nextSelf + 1 }
      e.pcancel fun x => { x with cancelSend := none })
  | _, _ => none

/-- The continuation of the write is destroyed. -/
def written (s : Connection) : Option Connection :=
  s.writing.map fun d => dropEntry { s with writing := none } d

/-- One event. `none` if it cannot happen. A cancellable is used for one call at a time. -/
def step (s : Connection) : Event → Option Connection
  | .construct c =>
    if s.cancellables c = none then
      some { s with cancellables := Function.update s.cancellables c (some Cancellable.empty) }
    else none
  | .move x y =>
    if (s.cancellables x).isSome = true ∧ s.cancellables y = none then some (s.moveTo x y) else none
  | .assign x y =>
    if (s.cancellables x).isSome = true ∧ (s.cancellables y).isSome = true then some (s.assign x y)
    else none
  | .destroy c => if (s.cancellables c).isSome = true then some (s.destroy c) else none
  | .cancel c => if (s.cancellables c).isSome = true then some (s.cancel c) else none
  | .call wait timeout cancel =>
    if ∀ c ∈ cancel, (s.cancellables c).isSome = true ∧ s.Unused c then
      some (s.call wait timeout cancel)
    else none
  | .pop => s.pop
  | .written => s.written
  | .sendTimer i =>
    if s.outgoingQueue.any (fun e => e.self == i && e.timer) then some (s.eraseEntry i) else none
  | .waitTimer id =>
    if s.outstanding.any (fun h => h.id == id && h.timer) then some (s.eraseHandler id) else none
  | .reply id => if s.outstanding.any (·.id == id) then some (s.eraseHandler id) else none
  | .fails => some { s with error := true }
  | .clearQueue =>
    if s.error = true ∧ s.writing = none then
      some (s.outgoingQueue.foldl dropEntry { s with outgoingQueue := [] })
    else none
  | .clearOutstanding =>
    if s.error = true then some (s.outstanding.foldl dropHandler { s with outstanding := [] })
    else none

/-! ### What the pointers designate -/

/-- Each back pointer and each closure leads to an entry or a handler that is there, and those that
have a cancellation object have one that is alive. -/
structure Linked (s : Connection) : Prop where
  sendBack : ∀ c x i, s.cancellables c = some x → x.sendBackPointer = some i →
    ∃ e ∈ s.entries, e.self = i ∧ e.pcancel = some c
  waitBack : ∀ c x id, s.cancellables c = some x → x.waitBackPointer = some id →
    ∃ h ∈ s.outstanding, h.id = id ∧ h.pcancel = some c
  entryCancel : ∀ e ∈ s.entries, ∀ c, e.pcancel = some c → (s.cancellables c).isSome = true
  handlerCancel : ∀ h ∈ s.outstanding, ∀ c, h.pcancel = some c → (s.cancellables c).isSome = true
  sendClosure : ∀ c x i, s.cancellables c = some x → x.cancelSend = some i →
    ∃ e ∈ s.outgoingQueue, e.self = i
  waitClosure : ∀ c x id, s.cancellables c = some x → x.cancelWait = some id →
    ∃ h ∈ s.outstanding, h.id = id

/-- The send loop does not take an entry with a cancellable. -/
def Detached (s : Connection) : Event → Prop
  | .pop => ∀ e ∈ s.outgoingQueue.head?, e.pcancel = none
  | _ => True

end Connection

end Netstar.Spec.Rpc.BackPointers
