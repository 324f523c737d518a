import Mathlib.Logic.Function.Basic
import Netstar.Lib.Run
import Netstar.Spec.AsyncFlow.Util

/-!
# `Netstar.Spec.AsyncFlow.AsyncFlow`: the double-direction async flow

`AsyncFlowImpl` is `async_flow_impl`, with one work unit for each side. A packet that arrives at
one side is sent by the work unit of that side (`is_send`), which forwards it to the other work
unit. There it is received and goes out.

The functions of the two work units call each other. A loop function whose future is ready at once
runs its post handler inside the call, and the caller goes on afterwards. So the model has a call
stack. A `Frame` is a function of one work unit together with the place where it goes on, and one
step runs the frame on top of the stack up to its next call of a loop function or to its return.
`internal_packet_forward` is the last call of such a piece of code, so it needs no frame of its own.

Packets, timers and completions of pending futures come from the reactor, which only runs when the
stack is empty. User code also runs inside a loop function, so registrations and `run_async_loop`
can happen at any time.
-/

set_option autoImplicit false

namespace Netstar.Spec.AsyncFlow

/-- The places where a function of a work unit goes on. -/
inductive Position where
  /-- `invoke_async_loop`, right before the call of the loop function. -/
  | invoke
  /-- `loop_fn_post_handler`, after the packet of the context was forwarded or not. -/
  | afterForward (action : AfAction)
  /-- `loop_fn_post_handler`, at the head of its loop. -/
  | drain
  /-- `loop_fn_post_handler`, before `pop_front` of a forwarded packet. -/
  | drainPop
  /-- `close_async_loop`, at the head of its loop. -/
  | closeDrain
  /-- `close_async_loop`, before `pop_front`. -/
  | closePop
  deriving DecidableEq, Repr

/-- A frame of the call stack. -/
structure Frame where
  isClient : Bool
  pos : Position
  deriving DecidableEq, Repr

/-- `async_flow_impl`. `pendingLoops` counts, for each side, the calls of its loop function whose
futures have not completed. -/
structure AsyncFlowImpl (σ π κ : Type) where
  client : AfWorkUnit σ π κ
  server : AfWorkUnit σ π κ
  initialContextDestroyed : Bool
  pendingLoops : Bool → Nat
  stack : List Frame
  effects : List (Effect π κ)

namespace AsyncFlowImpl

variable {σ π κ : Type} (P : Ppr σ π κ)

/-- The constructor. -/
def create (clientDirection : Nat) (clientFlowKey : κ) : AsyncFlowImpl σ π κ where
  client := { AfWorkUnit.create P true clientDirection with flowKey := some clientFlowKey }
  server := AfWorkUnit.create P false (getReverseDirection clientDirection)
  initialContextDestroyed := false
  pendingLoops := fun _ => 0
  stack := []
  effects := []

/-- `get_work_unit`. -/
def getWorkUnit (f : AsyncFlowImpl σ π κ) (isClient : Bool) : AfWorkUnit σ π κ :=
  if isClient then f.client else f.server

/-- The flow with another work unit on one side. -/
def setWorkUnit (f : AsyncFlowImpl σ π κ) (isClient : Bool) (u : AfWorkUnit σ π κ) :
    AsyncFlowImpl σ π κ :=
  if isClient then { f with client := u } else { f with server := u }

/-- The flow with more effects. -/
def emit (f : AsyncFlowImpl σ π κ) (es : List (Effect π κ)) : AsyncFlowImpl σ π κ :=
  { f with effects := f.effects ++ es }

/-- The flow with another call stack. -/
def setStack (f : AsyncFlowImpl σ π κ) (stack : List Frame) : AsyncFlowImpl σ π κ :=
  { f with stack := stack }

/-- The flow with another number of pending calls of the loop function of one side. -/
def setPendingLoops (f : AsyncFlowImpl σ π κ) (isClient : Bool) (n : Nat) : AsyncFlowImpl σ π κ :=
  { f with pendingLoops := Function.update f.pendingLoops isClient n }

/-- A call: the frame goes on top of the stack. -/
def push (f : AsyncFlowImpl σ π κ) (isClient : Bool) (pos : Position) : AsyncFlowImpl σ π κ :=
  f.setStack (⟨isClient, pos⟩ :: f.stack)

/-- The destructor of a packet that the work unit of `isClient` holds. A packet that it sends
arrived at its own side, and a packet that it receives arrived at the other side. -/
def freePacket (f : AsyncFlowImpl σ π κ) (pkt : RtePacket π) (isClient isSend : Bool)
    (cause : FreeCause) : AsyncFlowImpl σ π κ :=
  f.emit (pkt.toList.map (.free · (isClient == isSend) cause))

/-- `close_ppr_and_remove_flow_key`. -/
def closePprAndRemoveFlowKey (f : AsyncFlowImpl σ π κ) (isClient : Bool) : AsyncFlowImpl σ π κ :=
  let u := f.getWorkUnit isClient
  (f.setWorkUnit isClient { u with pprClose := true, flowKey := none }).emit
    (u.flowKey.toList.map .removeMapping)

/-- The call of the preprocessor in `preprocess_packet` and in `preprocess_and_forward`. -/
def callPpr (f : AsyncFlowImpl σ π κ) (isClient : Bool) (pkt : RtePacket π) (isSend : Bool) :
    AsyncFlowImpl σ π κ × GeneratedEvents :=
  let u := f.getWorkUnit isClient
  let (ppr, ge) := if isSend then P.handlePacketSend u.ppr pkt else P.handlePacketRecv u.ppr pkt
  (f.setWorkUnit isClient { u with ppr := ppr }, ge)

/-- `preprocess_packet`. -/
def preprocessPacket (f : AsyncFlowImpl σ π κ) (isClient : Bool) (pkt : RtePacket π)
    (isSend : Bool) : AsyncFlowImpl σ π κ × FilteredEvents :=
  let u := f.getWorkUnit isClient
  let (f, ge) := f.callPpr P isClient pkt isSend
  let fe := if isSend then u.sendEvents.filter ge else u.recvEvents.filter ge
  (if fe.onCloseEvent then f.closePprAndRemoveFlowKey isClient else f, fe)

/-- `preprocess_and_forward`, up to its last call, `internal_packet_forward`. -/
def preprocessAndForward (f : AsyncFlowImpl σ π κ) (isClient : Bool) (pkt : RtePacket π)
    (isSend : Bool) : AsyncFlowImpl σ π κ :=
  let (f, ge) := f.callPpr P isClient pkt isSend
  if ge.onCloseEvent then f.closePprAndRemoveFlowKey isClient else f

/-- `send_packet_out`. -/
def sendPacketOut (f : AsyncFlowImpl σ π κ) (pkt : RtePacket π) (isClient : Bool) :
    AsyncFlowImpl σ π κ :=
  f.emit (pkt.toList.map (.send · (f.getWorkUnit isClient).direction))

/-- `cur_context.emplace(...)` followed by the call of `invoke_async_loop`. -/
def startLoop (f : AsyncFlowImpl σ π κ) (isClient : Bool) (context : PacketContext π) :
    AsyncFlowImpl σ π κ :=
  let u := f.getWorkUnit isClient
  (f.setWorkUnit isClient { u with curContext := some context }).push isClient .invoke

/-- `action_after_packet_handle`, up to its last call. The second component is the packet of that
call, when it is `internal_packet_forward`. -/
def actionAfterPacketHandle (f : AsyncFlowImpl σ π κ) (isClient : Bool) (pkt : RtePacket π)
    (isSend : Bool) : AsyncFlowImpl σ π κ × Option (RtePacket π) :=
  let u := f.getWorkUnit isClient
  if u.loopFn then
    match u.curContext with
    | none =>
      let (f, fe) := f.preprocessPacket P isClient pkt isSend
      if fe.noEvent then (f, some pkt) else (f.startLoop isClient ⟨pkt, fe, isSend⟩, none)
    | some _ =>
      (f.setWorkUnit isClient { u with bufferQ := u.bufferQ ++ [⟨pkt, isSend⟩] }, none)
  else (f.preprocessAndForward P isClient pkt isSend, some pkt)

/-- The block `if(!working_unit.flow_key)` of `handle_packet_recv`. It adds a mapping for the
reverse key, and it does not set `flow_key`. -/
def addReverseMapping (f : AsyncFlowImpl σ π κ) (pkt : RtePacket π) (isClient : Bool) :
    AsyncFlowImpl σ π κ :=
  let u := f.getWorkUnit isClient
  match u.flowKey with
  | none => f.emit [.addMapping (P.getReverseFlowKey u.ppr pkt)]
  | some _ => f

/-- `handle_packet_recv`. A packet that the work unit forwards goes out. -/
def handlePacketRecv (f : AsyncFlowImpl σ π κ) (pkt : RtePacket π) (isClient : Bool) :
    AsyncFlowImpl σ π κ :=
  if (f.getWorkUnit isClient).pprClose || pkt.isNone then
    f.freePacket pkt isClient false .closedUnit
  else
    match (f.addReverseMapping P pkt isClient).actionAfterPacketHandle P isClient pkt false with
    | (f, none) => f
    | (f, some pkt) => f.sendPacketOut pkt isClient

/-- `internal_packet_forward`. -/
def internalPacketForward (f : AsyncFlowImpl σ π κ) (pkt : RtePacket π) (isClient isSend : Bool) :
    AsyncFlowImpl σ π κ :=
  if isSend then f.handlePacketRecv P pkt (!isClient) else f.sendPacketOut pkt isClient

/-- `handle_packet_send`. -/
def handlePacketSend (f : AsyncFlowImpl σ π κ) (pkt : RtePacket π) (direction : Nat) :
    AsyncFlowImpl σ π κ :=
  let isClient := direction == f.client.direction
  if (f.getWorkUnit isClient).pprClose then f.freePacket pkt isClient true .closedUnit
  else if !f.initialContextDestroyed then f.freePacket pkt isClient true .initialContext
  else
    match f.actionAfterPacketHandle P isClient pkt true with
    | (f, none) => f
    | (f, some pkt) => f.internalPacketForward P pkt isClient true

/-- `async_loop_exception_handler`. -/
def asyncLoopExceptionHandler (f : AsyncFlowImpl σ π κ) (isClient : Bool) :
    AsyncFlowImpl σ π κ :=
  let u := f.getWorkUnit isClient
  let f := { f with initialContextDestroyed := false }
  let f := f.setWorkUnit isClient { u with curContext := none, loopFn := false, bufferQ := [] }
  let f := u.curContext.elim f fun c => f.freePacket c.pkt isClient c.isSend .exception
  let f := u.bufferQ.foldl (fun f b => f.freePacket b.pkt isClient b.isSend .exception) f
  f.emit [.quit false]

/-- `loop_fn_post_handler`, up to the forwarding of the packet. The context keeps the null packet
that the move leaves behind. A dropped packet is freed here, and in the source a little later, when
the context is reset. -/
def loopFnPostHandler (f : AsyncFlowImpl σ π κ) (isClient : Bool) (action : AfAction) :
    AsyncFlowImpl σ π κ :=
  let u := f.getWorkUnit isClient
  match u.curContext with
  | none => f
  | some context =>
    let f := f.setWorkUnit isClient { u with curContext := some { context with pkt := none } }
    let f := f.push isClient (.afterForward action)
    if action.forwards then f.internalPacketForward P context.pkt isClient context.isSend
    else f.freePacket context.pkt isClient context.isSend .dropAction

/-- The rest of `loop_fn_post_handler`, up to its loop or to the call of `close_async_loop`. -/
def runAfterForward (f : AsyncFlowImpl σ π κ) (isClient : Bool) (action : AfAction) :
    AsyncFlowImpl σ π κ :=
  let u := { f.getWorkUnit isClient with curContext := none }
  if action.closes then
    (f.setWorkUnit isClient { u with loopFn := false }).push isClient .closeDrain
  else (f.setWorkUnit isClient u).push isClient .drain

/-- One round of the loop of `loop_fn_post_handler`, and what follows the loop. -/
def runDrain (f : AsyncFlowImpl σ π κ) (isClient : Bool) : AsyncFlowImpl σ π κ :=
  match (f.getWorkUnit isClient).bufferQ with
  | [] =>
    if (f.getWorkUnit isClient).pprClose then f.startLoop isClient ⟨none, .makeCloseEvent, true⟩
    else f
  | b :: q =>
    let (f, fe) := f.preprocessPacket P isClient b.pkt b.isSend
    if fe.noEvent then
      let f := f.setWorkUnit isClient
        { f.getWorkUnit isClient with bufferQ := { b with pkt := none } :: q }
      -- Without an event the packet is forwarded inside the loop, and popped only after that.
      (f.push isClient .drainPop).internalPacketForward P b.pkt isClient b.isSend
    else
      (f.setWorkUnit isClient { f.getWorkUnit isClient with bufferQ := q }).startLoop isClient
        ⟨b.pkt, fe, b.isSend⟩

/-- `buffer_q.pop_front()`. -/
def popFront (f : AsyncFlowImpl σ π κ) (isClient : Bool) : AsyncFlowImpl σ π κ :=
  f.setWorkUnit isClient
    { f.getWorkUnit isClient with bufferQ := (f.getWorkUnit isClient).bufferQ.tail }

/-- One round of the loop of `close_async_loop`, and what follows the loop. -/
def runCloseDrain (f : AsyncFlowImpl σ π κ) (isClient : Bool) : AsyncFlowImpl σ π κ :=
  match (f.getWorkUnit isClient).bufferQ with
  | [] =>
    (f.setWorkUnit isClient { f.getWorkUnit isClient with asyncLoopQuitPr := false }).emit
      [.quit true]
  | b :: q =>
    let f := f.setWorkUnit isClient
      { f.getWorkUnit isClient with bufferQ := { b with pkt := none } :: q }
    let f := f.preprocessAndForward P isClient b.pkt b.isSend
    (f.push isClient .closePop).internalPacketForward P b.pkt isClient b.isSend

/-- The code at a position other than the call of a loop function. The frame itself is off the
stack. -/
def runPosition (f : AsyncFlowImpl σ π κ) (isClient : Bool) : Position → AsyncFlowImpl σ π κ
  | .invoke => f
  | .afterForward action => f.runAfterForward isClient action
  | .drain => f.runDrain P isClient
  | .drainPop => (f.popFront isClient).push isClient .drain
  | .closeDrain => f.runCloseDrain P isClient
  | .closePop => (f.popFront isClient).push isClient .closeDrain

/-- `ppr_passive_close`. -/
def pprPassiveClose (f : AsyncFlowImpl σ π κ) (isClient : Bool) : AsyncFlowImpl σ π κ :=
  let f := f.closePprAndRemoveFlowKey isClient
  let u := f.getWorkUnit isClient
  if u.loopFn && u.curContext.isNone then f.startLoop isClient ⟨none, .makeCloseEvent, true⟩
  else f

/-- `event_registration`. -/
def eventRegistration (f : AsyncFlowImpl σ π κ) (isClient isSend : Bool) (ev : Nat) :
    AsyncFlowImpl σ π κ :=
  let u := f.getWorkUnit isClient
  f.setWorkUnit isClient
    (if isSend then { u with sendEvents := u.sendEvents.registerEvent ev }
      else { u with recvEvents := u.recvEvents.registerEvent ev })

/-- `event_unregistration`. -/
def eventUnregistration (f : AsyncFlowImpl σ π κ) (isClient isSend : Bool) (ev : Nat) :
    AsyncFlowImpl σ π κ :=
  let u := f.getWorkUnit isClient
  f.setWorkUnit isClient
    (if isSend then { u with sendEvents := u.sendEvents.unregisterEvent ev }
      else { u with recvEvents := u.recvEvents.unregisterEvent ev })

/-- `run_async_loop`, with a function that can be called. Its assertion is compiled out. -/
def runAsyncLoop (f : AsyncFlowImpl σ π κ) (isClient : Bool) : AsyncFlowImpl σ π κ :=
  f.setWorkUnit isClient
    { f.getWorkUnit isClient with loopFn := true, asyncLoopQuitPr := true }

/-- `destroy_initial_context`. -/
def destroyInitialContext (f : AsyncFlowImpl σ π κ) : AsyncFlowImpl σ π κ :=
  { f with initialContextDestroyed := true }

/-- The continuation that `invoke_async_loop` attaches to the future of the loop function. -/
def loopDone (f : AsyncFlowImpl σ π κ) (isClient : Bool) : LoopResult → AsyncFlowImpl σ π κ
  | .action a => f.loopFnPostHandler P isClient a
  | .failed => f.asyncLoopExceptionHandler isClient

/-- What can happen to a flow. -/
inductive Label (π : Type) where
  /-- `handle_packet_send`. -/
  | packet (pkt : π) (direction : Nat)
  | passiveClose (isClient : Bool)
  | register (isClient isSend : Bool) (ev : Nat)
  | unregister (isClient isSend : Bool) (ev : Nat)
  | runLoop (isClient : Bool)
  | destroyInitialContext
  /-- The future of a pending loop function completes. -/
  | loopDone (isClient : Bool) (result : LoopResult)
  /-- The loop function on top of the stack is called. Its future is not ready (`none`), or it is
  ready with a result. -/
  | callLoop (result : Option LoopResult)
  /-- The frame on top of the stack goes on. -/
  | goOn
  deriving DecidableEq, Repr

/-- One step of a flow. -/
def step (f : AsyncFlowImpl σ π κ) : Label π → Option (AsyncFlowImpl σ π κ)
  | .packet pkt direction =>
    if f.stack = [] then some (f.handlePacketSend P (some pkt) direction) else none
  | .passiveClose isClient => if f.stack = [] then some (f.pprPassiveClose isClient) else none
  | .register isClient isSend ev => some (f.eventRegistration isClient isSend ev)
  | .unregister isClient isSend ev => some (f.eventUnregistration isClient isSend ev)
  | .runLoop isClient => some (f.runAsyncLoop isClient)
  | .destroyInitialContext => some f.destroyInitialContext
  | .loopDone isClient result =>
    if f.stack = [] ∧ 0 < f.pendingLoops isClient then
      let f := f.setPendingLoops isClient (f.pendingLoops isClient - 1)
      some (f.loopDone P isClient result)
    else none
  | .callLoop result =>
    match f.stack with
    | ⟨isClient, .invoke⟩ :: rest =>
      let f := f.setStack rest
      if (f.getWorkUnit isClient).loopFn then
        match result with
        | none => some (f.setPendingLoops isClient (f.pendingLoops isClient + 1))
        | some result => some (f.loopDone P isClient result)
      else some (f.asyncLoopExceptionHandler isClient)
    | _ => none
  | .goOn =>
    match f.stack with
    | [] => none
    | ⟨isClient, pos⟩ :: rest =>
      if pos = .invoke then none else some ((f.setStack rest).runPosition P isClient pos)

end AsyncFlowImpl

end Netstar.Spec.AsyncFlow
