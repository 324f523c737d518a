import Netstar.Lib.Run
import Netstar.Spec.AsyncFlow.Util

/-!
# `Netstar.Spec.AsyncFlow.SdAsyncFlow`: the single-direction async flow

`SdAsyncFlowImpl` is `sd_async_flow_impl`: one work unit for the client side. A packet that
arrives is preprocessed. When it raises no registered event it is forwarded at once, and
otherwise it becomes the current context and the loop function runs. Packets that arrive while
the loop function is pending wait in `buffer_q`.

The loop function returns a future. `invoke_async_loop` is the last thing that each of its
callers does, so a future that is ready at once behaves like one that completes in the next step.
`invokeAsyncLoop` therefore only counts a pending call, and the completion is a step of its own.

What a flow does to its surroundings is appended to `effects`. A packet whose destructor runs
shows up there with the cause.
-/

set_option autoImplicit false

namespace Netstar.Spec.AsyncFlow

/-- `sd_async_flow_impl`. `pendingLoops` counts the calls of the loop function whose futures have
not completed. -/
structure SdAsyncFlowImpl (σ π κ : Type) where
  client : AfWorkUnit σ π κ
  reverseDirectionForClient : Nat
  initialContextDestroyed : Bool
  pendingLoops : Nat
  effects : List (Effect π κ)
  deriving DecidableEq, Repr

namespace SdAsyncFlowImpl

variable {σ π κ : Type} (P : Ppr σ π κ)

/-- The constructor. -/
def create (clientDirection : Nat) (clientFlowKey : κ) : SdAsyncFlowImpl σ π κ where
  client := { AfWorkUnit.create P true clientDirection with flowKey := some clientFlowKey }
  reverseDirectionForClient := getReverseDirection clientDirection
  initialContextDestroyed := false
  pendingLoops := 0
  effects := []

/-- The flow with another state of the preprocessor. -/
def setPpr (f : SdAsyncFlowImpl σ π κ) (ppr : σ) : SdAsyncFlowImpl σ π κ :=
  { f with client := { f.client with ppr := ppr } }

/-- The flow with another buffer. -/
def setBufferQ (f : SdAsyncFlowImpl σ π κ) (q : List (BufferedPacket π)) :
    SdAsyncFlowImpl σ π κ :=
  { f with client := { f.client with bufferQ := q } }

/-- The flow with another context. -/
def setCurContext (f : SdAsyncFlowImpl σ π κ) (context : Option (PacketContext π)) :
    SdAsyncFlowImpl σ π κ :=
  { f with client := { f.client with curContext := context } }

/-- The flow with a loop function, or without one. -/
def setLoopFn (f : SdAsyncFlowImpl σ π κ) (loopFn : Bool) : SdAsyncFlowImpl σ π κ :=
  { f with client := { f.client with loopFn := loopFn } }

/-- The destructor of a packet, with the cause. The null packet frees nothing. -/
def freePacket (f : SdAsyncFlowImpl σ π κ) (pkt : RtePacket π) (cause : FreeCause) :
    SdAsyncFlowImpl σ π κ :=
  match pkt with
  | none => f
  | some p => { f with effects := f.effects ++ [.free p true cause] }

/-- `close_ppr_and_remove_flow_key`. -/
def closePprAndRemoveFlowKey (f : SdAsyncFlowImpl σ π κ) : SdAsyncFlowImpl σ π κ :=
  match f.client.flowKey with
  | none => { f with client := { f.client with pprClose := true } }
  | some key =>
    { f with
        client := { f.client with pprClose := true, flowKey := none }
        effects := f.effects ++ [.removeMapping key] }

/-- `preprocess_packet`. -/
def preprocessPacket (f : SdAsyncFlowImpl σ π κ) (pkt : RtePacket π) :
    SdAsyncFlowImpl σ π κ × FilteredEvents :=
  let (ppr, ge) := P.handlePacketSend f.client.ppr pkt
  let fe := f.client.sendEvents.filter ge
  let f := f.setPpr ppr
  (if fe.onCloseEvent then f.closePprAndRemoveFlowKey else f, fe)

/-- `internal_packet_forward`. -/
def internalPacketForward (f : SdAsyncFlowImpl σ π κ) (pkt : RtePacket π) :
    SdAsyncFlowImpl σ π κ :=
  match pkt with
  | none => f
  | some p => { f with effects := f.effects ++ [.send p f.reverseDirectionForClient] }

/-- `preprocess_and_forward`. -/
def preprocessAndForward (f : SdAsyncFlowImpl σ π κ) (pkt : RtePacket π) :
    SdAsyncFlowImpl σ π κ :=
  let (ppr, ge) := P.handlePacketSend f.client.ppr pkt
  let f := f.setPpr ppr
  let f := if ge.onCloseEvent then f.closePprAndRemoveFlowKey else f
  f.internalPacketForward pkt

/-- The loop of `close_async_loop` over `buffer_q`, whose content is the first argument. -/
def closeDrain : List (BufferedPacket π) → SdAsyncFlowImpl σ π κ → SdAsyncFlowImpl σ π κ
  | [], f => f
  | b :: q, f =>
    let f := f.preprocessAndForward P b.pkt
    closeDrain q (f.setBufferQ q)

/-- `close_async_loop`. -/
def closeAsyncLoop (f : SdAsyncFlowImpl σ π κ) : SdAsyncFlowImpl σ π κ :=
  let f := f.setLoopFn false
  let f := closeDrain P f.client.bufferQ f
  { f with
      client := { f.client with asyncLoopQuitPr := false }
      effects := f.effects ++ [.quit true] }

/-- The loop of `async_loop_exception_handler` over `buffer_q`, whose content is the first
argument. -/
def discardBuffer : List (BufferedPacket π) → SdAsyncFlowImpl σ π κ → SdAsyncFlowImpl σ π κ
  | [], f => f
  | b :: q, f =>
    let f := f.freePacket b.pkt .exception
    discardBuffer q (f.setBufferQ q)

/-- The packet of the current context. -/
def contextPacket (f : SdAsyncFlowImpl σ π κ) : RtePacket π := f.client.curContext.bind (·.pkt)

/-- `async_loop_exception_handler`. It resets the flag of the initial context, and it leaves the
promise engaged. -/
def asyncLoopExceptionHandler (f : SdAsyncFlowImpl σ π κ) : SdAsyncFlowImpl σ π κ :=
  let f := { f with initialContextDestroyed := false }
  let f := f.freePacket f.contextPacket .exception
  let f := (f.setCurContext none).setLoopFn false
  let f := discardBuffer f.client.bufferQ f
  { f with effects := f.effects ++ [.quit false] }

/-- `invoke_async_loop`. The call of an empty `std::function` throws. -/
def invokeAsyncLoop (f : SdAsyncFlowImpl σ π κ) : SdAsyncFlowImpl σ π κ :=
  if f.client.loopFn then { f with pendingLoops := f.pendingLoops + 1 }
  else f.asyncLoopExceptionHandler

/-- The synthetic context of a close event. -/
def closeContext : PacketContext π := ⟨none, .makeCloseEvent, true⟩

/-- `cur_context.emplace(...)` followed by `invoke_async_loop()`. -/
def startLoop (f : SdAsyncFlowImpl σ π κ) (context : PacketContext π) : SdAsyncFlowImpl σ π κ :=
  (f.setCurContext (some context)).invokeAsyncLoop

/-- The loop of `loop_fn_post_handler` over `buffer_q`, whose content is the first argument, and
what follows it. -/
def postDrain : List (BufferedPacket π) → SdAsyncFlowImpl σ π κ → SdAsyncFlowImpl σ π κ
  | [], f => if f.client.pprClose then f.startLoop closeContext else f
  | b :: q, f =>
    let (f, fe) := f.preprocessPacket P b.pkt
    if fe.noEvent then
      let f := f.internalPacketForward b.pkt
      postDrain q (f.setBufferQ q)
    else (f.setBufferQ q).startLoop ⟨b.pkt, fe, b.isSend⟩

/-- `loop_fn_post_handler`. Without a current context `value()` throws into the future that
`then_wrapped` returns, and nobody looks at that future. -/
def loopFnPostHandler (f : SdAsyncFlowImpl σ π κ) (action : AfAction) : SdAsyncFlowImpl σ π κ :=
  match f.client.curContext with
  | none => f
  | some context =>
    let f :=
      if action.forwards then f.internalPacketForward context.pkt
      else f.freePacket context.pkt .dropAction
    let f := f.setCurContext none
    if action.closes then f.closeAsyncLoop P else postDrain P f.client.bufferQ f

/-- `destroy_initial_context`. -/
def destroyInitialContext (f : SdAsyncFlowImpl σ π κ) : SdAsyncFlowImpl σ π κ :=
  { f with initialContextDestroyed := true }

/-- `handle_packet_send`. -/
def handlePacketSend (f : SdAsyncFlowImpl σ π κ) (pkt : RtePacket π) : SdAsyncFlowImpl σ π κ :=
  if f.client.pprClose then f.freePacket pkt .closedUnit
  else if !f.initialContextDestroyed then f.freePacket pkt .initialContext
  else if f.client.loopFn then
    match f.client.curContext with
    | none =>
      let (f, fe) := f.preprocessPacket P pkt
      if fe.noEvent then f.internalPacketForward pkt else f.startLoop ⟨pkt, fe, true⟩
    | some _ => f.setBufferQ (f.client.bufferQ ++ [⟨pkt, true⟩])
  else f.preprocessAndForward P pkt

/-- `ppr_passive_close`. -/
def pprPassiveClose (f : SdAsyncFlowImpl σ π κ) : SdAsyncFlowImpl σ π κ :=
  let f := f.closePprAndRemoveFlowKey
  if f.client.loopFn && f.client.curContext.isNone then f.startLoop closeContext else f

/-- `event_registration`. -/
def eventRegistration (f : SdAsyncFlowImpl σ π κ) (ev : Nat) : SdAsyncFlowImpl σ π κ :=
  { f with client := { f.client with sendEvents := f.client.sendEvents.registerEvent ev } }

/-- `event_unregistration`. -/
def eventUnregistration (f : SdAsyncFlowImpl σ π κ) (ev : Nat) : SdAsyncFlowImpl σ π κ :=
  { f with client := { f.client with sendEvents := f.client.sendEvents.unregisterEvent ev } }

/-- `run_async_loop`, with a function that can be called. Its assertion is compiled out. -/
def runAsyncLoop (f : SdAsyncFlowImpl σ π κ) : SdAsyncFlowImpl σ π κ :=
  { f with client := { f.client with loopFn := true, asyncLoopQuitPr := true } }

/-- What can happen to a flow: a call of one of its functions, or the completion of a pending
loop function. -/
inductive Label (π : Type) where
  | packet (pkt : π)
  | passiveClose
  | register (ev : Nat)
  | unregister (ev : Nat)
  | runLoop
  | destroyInitialContext
  | loopDone (result : LoopResult)
  deriving DecidableEq, Repr

/-- The continuation that `invoke_async_loop` attaches to the future of the loop function. -/
def loopDone (f : SdAsyncFlowImpl σ π κ) : LoopResult → SdAsyncFlowImpl σ π κ
  | .action a => f.loopFnPostHandler P a
  | .failed => f.asyncLoopExceptionHandler

/-- One step of a flow. A completion needs a pending loop function. -/
def step (f : SdAsyncFlowImpl σ π κ) : Label π → Option (SdAsyncFlowImpl σ π κ)
  | .packet pkt => some (f.handlePacketSend P (some pkt))
  | .passiveClose => some f.pprPassiveClose
  | .register ev => some (f.eventRegistration ev)
  | .unregister ev => some (f.eventUnregistration ev)
  | .runLoop => some f.runAsyncLoop
  | .destroyInitialContext => some f.destroyInitialContext
  | .loopDone result =>
    if 0 < f.pendingLoops then
      some (loopDone P { f with pendingLoops := f.pendingLoops - 1 } result)
    else none

end SdAsyncFlowImpl

end Netstar.Spec.AsyncFlow
