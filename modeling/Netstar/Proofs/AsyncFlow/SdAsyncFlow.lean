import Netstar.Lib.LossyLine
import Netstar.Spec.AsyncFlow.SdAsyncFlow

/-!
# `Netstar.Proofs.AsyncFlow.SdAsyncFlow`: a flow forwards in order

A flow holds packets at two places, the current context and the buffer. `line` is what a flow has
sent, followed by what it holds. `WellFormed` is the invariant that makes the line a queue: the
buffer is only used while a context is engaged, and a context is engaged exactly while one call of
the loop function is pending.

Each function of the flow has one lemma about the line. They differ in what they do to its front:
a forwarded packet moves from the held part to the sent part, so the line stays as it is, and a
dropped packet is cut out.
-/

set_option autoImplicit false

namespace Netstar.Proofs.AsyncFlow

open Netstar.Lib
open Netstar.Spec.AsyncFlow
open Netstar.Spec.AsyncFlow.SdAsyncFlowImpl

variable {σ π κ : Type}

/-! ### The packets of a flow -/

/-- The packets handed to `manager.send`, in order. -/
def sentPackets (es : List (Effect π κ)) : List π :=
  es.filterMap fun
    | .send pkt _ => some pkt
    | _ => none

/-- The packets whose destructor has run, in order. -/
def freedPackets (es : List (Effect π κ)) : List π :=
  es.filterMap fun
    | .free pkt _ _ => some pkt
    | _ => none

/-- The packets of a buffer. -/
def bufferedPackets (q : List (BufferedPacket π)) : List π := q.filterMap (·.pkt)

/-- What a flow has sent, followed by what it holds. -/
def sdLine (f : SdAsyncFlowImpl σ π κ) : List π :=
  sentPackets f.effects ++ f.contextPacket.toList ++ bufferedPackets f.client.bufferQ

/-- Effects are sent one after another. -/
@[simp] theorem sentPackets_append (es es' : List (Effect π κ)) :
    sentPackets (es ++ es') = sentPackets es ++ sentPackets es' :=
  List.filterMap_append

/-- Effects free packets one after another. -/
@[simp] theorem freedPackets_append (es es' : List (Effect π κ)) :
    freedPackets (es ++ es') = freedPackets es ++ freedPackets es' :=
  List.filterMap_append

/-- An empty buffer has no packets. -/
@[simp] theorem bufferedPackets_nil : bufferedPackets ([] : List (BufferedPacket π)) = [] := rfl

/-- The front of a buffer comes first. -/
@[simp] theorem bufferedPackets_cons (b : BufferedPacket π) (q : List (BufferedPacket π)) :
    bufferedPackets (b :: q) = b.pkt.toList ++ bufferedPackets q := by
  cases h : b.pkt <;> simp [bufferedPackets, h]

/-- A buffer keeps its order. -/
@[simp] theorem bufferedPackets_append (q q' : List (BufferedPacket π)) :
    bufferedPackets (q ++ q') = bufferedPackets q ++ bufferedPackets q' :=
  List.filterMap_append

/-! ### What the helper functions leave alone -/

/-- `f'` is `f` after some preprocessing, with the packets `pkts` sent. The loop and the context
are the same. -/
structure Forwards (f f' : SdAsyncFlowImpl σ π κ) (pkts : List π) : Prop where
  curContext : f'.client.curContext = f.client.curContext
  loopFn : f'.client.loopFn = f.client.loopFn
  pendingLoops : f'.pendingLoops = f.pendingLoops
  initialContextDestroyed : f'.initialContextDestroyed = f.initialContextDestroyed
  sent : sentPackets f'.effects = sentPackets f.effects ++ pkts
  freed : freedPackets f'.effects = freedPackets f.effects

/-- Packets that are forwarded one after another. -/
theorem Forwards.trans {f g h : SdAsyncFlowImpl σ π κ} {a b : List π} (hfg : Forwards f g a)
    (hgh : Forwards g h b) : Forwards f h (a ++ b) where
  curContext := hgh.curContext.trans hfg.curContext
  loopFn := hgh.loopFn.trans hfg.loopFn
  pendingLoops := hgh.pendingLoops.trans hfg.pendingLoops
  initialContextDestroyed := hgh.initialContextDestroyed.trans hfg.initialContextDestroyed
  sent := by rw [hgh.sent, hfg.sent, List.append_assoc]
  freed := hgh.freed.trans hfg.freed

/-- A close sends no packet. -/
theorem forwards_closePprAndRemoveFlowKey (f : SdAsyncFlowImpl σ π κ) :
    Forwards f f.closePprAndRemoveFlowKey [] := by
  unfold closePprAndRemoveFlowKey
  split <;> constructor <;> simp [sentPackets, freedPackets]

/-- A close leaves the buffer as it is. -/
@[simp] theorem bufferQ_closePprAndRemoveFlowKey (f : SdAsyncFlowImpl σ π κ) :
    f.closePprAndRemoveFlowKey.client.bufferQ = f.client.bufferQ := by
  unfold closePprAndRemoveFlowKey
  split <;> rfl

/-- The packet is sent unless it is null. -/
theorem forwards_internalPacketForward (f : SdAsyncFlowImpl σ π κ) (pkt : RtePacket π) :
    Forwards f (f.internalPacketForward pkt) pkt.toList := by
  unfold internalPacketForward
  split <;> constructor <;> simp [sentPackets, freedPackets]

/-- Sending a packet does not touch the work unit. -/
@[simp] theorem client_internalPacketForward (f : SdAsyncFlowImpl σ π κ) (pkt : RtePacket π) :
    (f.internalPacketForward pkt).client = f.client := by
  unfold internalPacketForward
  split <;> rfl

/-- Freeing a packet does not touch the work unit. -/
@[simp] theorem client_freePacket (f : SdAsyncFlowImpl σ π κ) (pkt : RtePacket π)
    (cause : FreeCause) : (f.freePacket pkt cause).client = f.client := by
  unfold freePacket
  split <;> rfl

variable (P : Ppr σ π κ)

/-- The state of the preprocessor does not matter to the loop. -/
theorem forwards_setPpr (f : SdAsyncFlowImpl σ π κ) (ppr : σ) :
    Forwards f (f.setPpr ppr) [] :=
  ⟨rfl, rfl, rfl, rfl, (List.append_nil _).symm, rfl⟩

/-- Preprocessing sends nothing. -/
theorem forwards_preprocessPacket (f : SdAsyncFlowImpl σ π κ) (pkt : RtePacket π) :
    Forwards f (f.preprocessPacket P pkt).1 [] := by
  unfold preprocessPacket
  dsimp only
  split
  · exact (forwards_setPpr f _).trans (forwards_closePprAndRemoveFlowKey _)
  · exact forwards_setPpr f _

/-- Preprocessing leaves the buffer as it is. -/
@[simp] theorem bufferQ_preprocessPacket (f : SdAsyncFlowImpl σ π κ) (pkt : RtePacket π) :
    (f.preprocessPacket P pkt).1.client.bufferQ = f.client.bufferQ := by
  unfold preprocessPacket
  dsimp only
  split <;> simp [setPpr]

/-- `preprocess_and_forward` sends its packet. -/
theorem forwards_preprocessAndForward (f : SdAsyncFlowImpl σ π κ) (pkt : RtePacket π) :
    Forwards f (f.preprocessAndForward P pkt) pkt.toList := by
  unfold preprocessAndForward
  dsimp only
  split
  · exact ((forwards_setPpr f _).trans (forwards_closePprAndRemoveFlowKey _)).trans
      (forwards_internalPacketForward _ _)
  · exact (forwards_setPpr f _).trans (forwards_internalPacketForward _ _)

/-- `preprocess_and_forward` leaves the buffer as it is. -/
@[simp] theorem bufferQ_preprocessAndForward (f : SdAsyncFlowImpl σ π κ) (pkt : RtePacket π) :
    (f.preprocessAndForward P pkt).client.bufferQ = f.client.bufferQ := by
  unfold preprocessAndForward
  dsimp only
  split <;> simp [setPpr]

/-! ### The loops over the buffer -/

/-- A new buffer sends nothing. -/
theorem forwards_setBufferQ (f : SdAsyncFlowImpl σ π κ) (q : List (BufferedPacket π)) :
    Forwards f (f.setBufferQ q) [] :=
  ⟨rfl, rfl, rfl, rfl, (List.append_nil _).symm, rfl⟩

/-- The buffer that was set. -/
@[simp] theorem bufferQ_setBufferQ (f : SdAsyncFlowImpl σ π κ) (q : List (BufferedPacket π)) :
    (f.setBufferQ q).client.bufferQ = q := rfl

/-- `close_async_loop` forwards the whole buffer. -/
theorem forwards_closeDrain (q : List (BufferedPacket π)) (f : SdAsyncFlowImpl σ π κ) :
    Forwards f (closeDrain P q f) (bufferedPackets q) := by
  induction q generalizing f with
  | nil => exact ⟨rfl, rfl, rfl, rfl, by simp [closeDrain], rfl⟩
  | cons b q ih =>
    rw [closeDrain, bufferedPackets_cons]
    have hb := (forwards_preprocessAndForward P f b.pkt).trans (forwards_setBufferQ _ q)
    rw [List.append_nil] at hb
    exact hb.trans (ih _)

/-- `close_async_loop` leaves no packet in the buffer. -/
theorem bufferQ_closeDrain (q : List (BufferedPacket π)) (f : SdAsyncFlowImpl σ π κ)
    (hq : f.client.bufferQ = q) : (closeDrain P q f).client.bufferQ = [] := by
  induction q generalizing f with
  | nil => exact hq
  | cons b q ih => exact ih _ rfl

/-- The exception handler frees the whole buffer. -/
theorem discardBuffer_eq (q : List (BufferedPacket π)) (f : SdAsyncFlowImpl σ π κ)
    (hq : f.client.bufferQ = q) :
    discardBuffer q f =
      { f with
          client := { f.client with bufferQ := [] }
          effects := f.effects ++ (bufferedPackets q).map (.free · true .exception) } := by
  induction q generalizing f with
  | nil =>
    obtain ⟨client, reverse, destroyed, pending, effects⟩ := f
    cases client
    simp_all [discardBuffer]
  | cons b q ih =>
    rw [discardBuffer, ih _ rfl, bufferedPackets_cons]
    cases b.pkt <;> simp [freePacket, setBufferQ]

/-! ### Between two steps -/

/-- The invariant of a flow between two steps. -/
structure WellFormed (f : SdAsyncFlowImpl σ π κ) : Prop where
  pending : f.pendingLoops = if f.client.curContext.isSome then 1 else 0
  loopFn : f.client.curContext.isSome → f.client.loopFn = true
  bufferQ : f.client.curContext = none → f.client.bufferQ = []

/-- `f'` is well formed, and its line is that of `f` followed by `pkts`. -/
structure ExtendsLine (f f' : SdAsyncFlowImpl σ π κ) (pkts : List π) : Prop where
  wellFormed : WellFormed f'
  line : sdLine f' = sdLine f ++ pkts
  freed : freedPackets f'.effects = freedPackets f.effects
  initialContextDestroyed :
    f.initialContextDestroyed = true → f'.initialContextDestroyed = true

/-- A flow that holds no packets and has no pending call is well formed. -/
theorem wellFormed_of_none {f : SdAsyncFlowImpl σ π κ} (hpending : f.pendingLoops = 0)
    (hcontext : f.client.curContext = none) (hbuffer : f.client.bufferQ = []) : WellFormed f :=
  ⟨by simp [hpending, hcontext], by simp [hcontext], fun _ => hbuffer⟩

/-- Without a context the line is what was sent and the buffer. -/
theorem sdLine_of_none {f : SdAsyncFlowImpl σ π κ} (h : f.client.curContext = none) :
    sdLine f = sentPackets f.effects ++ bufferedPackets f.client.bufferQ := by
  simp [sdLine, contextPacket, h]

/-- With a loop function the context waits for one more completion. -/
theorem startLoop_eq {f : SdAsyncFlowImpl σ π κ} (context : PacketContext π)
    (hloop : f.client.loopFn = true) :
    f.startLoop context =
      { f.setCurContext (some context) with pendingLoops := f.pendingLoops + 1 } := by
  rw [startLoop, invokeAsyncLoop]
  exact if_pos hloop

/-- The new context stands between what was sent and the buffer. -/
theorem startLoop_spec {f : SdAsyncFlowImpl σ π κ} (context : PacketContext π)
    (hpending : f.pendingLoops = 0) (hloop : f.client.loopFn = true) :
    WellFormed (f.startLoop context) ∧
      sdLine (f.startLoop context) =
        sentPackets f.effects ++ context.pkt.toList ++ bufferedPackets f.client.bufferQ ∧
      (f.startLoop context).effects = f.effects ∧
      (f.startLoop context).initialContextDestroyed = f.initialContextDestroyed := by
  rw [startLoop_eq context hloop]
  refine ⟨⟨?_, ?_, ?_⟩, rfl, rfl, rfl⟩
  · simp [setCurContext, hpending]
  · simp [setCurContext, hloop]
  · simp [setCurContext]

/-- The loop of the post handler keeps the line: it sends the front of the buffer, or it makes it
the new context. -/
theorem extendsLine_postDrain (q : List (BufferedPacket π)) (f : SdAsyncFlowImpl σ π κ)
    (hq : f.client.bufferQ = q) (hpending : f.pendingLoops = 0)
    (hcontext : f.client.curContext = none) (hloop : f.client.loopFn = true) :
    ExtendsLine f (postDrain P q f) [] := by
  induction q generalizing f with
  | nil =>
    rw [postDrain]
    split
    · obtain ⟨hwf, hline, heffects, hdestroyed⟩ :=
        startLoop_spec (closeContext : PacketContext π) hpending hloop
      refine ⟨hwf, ?_, by rw [heffects], hdestroyed.trans⟩
      rw [hline, sdLine_of_none hcontext, hq]
      simp [closeContext]
    · exact ⟨wellFormed_of_none hpending hcontext hq, by simp, rfl, id⟩
  | cons b q ih =>
    have hpre := forwards_preprocessPacket P f b.pkt
    rw [postDrain]
    dsimp only
    split
    · have hfwd := (hpre.trans (forwards_internalPacketForward _ b.pkt)).trans
        (forwards_setBufferQ _ q)
      obtain ⟨hwf, hline, hfreed, hdestroyed⟩ := ih _ rfl (hfwd.pendingLoops.trans hpending)
        (hfwd.curContext.trans hcontext) (hfwd.loopFn.trans hloop)
      refine ⟨hwf, ?_, hfreed.trans hfwd.freed,
        fun h => hdestroyed (hfwd.initialContextDestroyed.trans h)⟩
      rw [hline, sdLine_of_none (hfwd.curContext.trans hcontext), hfwd.sent,
        sdLine_of_none hcontext, hq]
      simp
    · have hfwd := hpre.trans (forwards_setBufferQ _ q)
      obtain ⟨hwf, hline, heffects, hdestroyed⟩ := startLoop_spec
        ⟨b.pkt, (f.preprocessPacket P b.pkt).2, b.isSend⟩ (hfwd.pendingLoops.trans hpending)
        (hfwd.loopFn.trans hloop)
      refine ⟨hwf, ?_, by rw [heffects, hfwd.freed],
        (hdestroyed.trans hfwd.initialContextDestroyed).trans⟩
      rw [hline, hfwd.sent, sdLine_of_none hcontext, hq]
      simp

/-- `close_async_loop` sends the whole buffer. -/
theorem extendsLine_closeAsyncLoop (f : SdAsyncFlowImpl σ π κ) (hpending : f.pendingLoops = 0)
    (hcontext : f.client.curContext = none) : ExtendsLine f (f.closeAsyncLoop P) [] := by
  have hfwd := forwards_closeDrain P f.client.bufferQ (f.setLoopFn false)
  have hbuffer := bufferQ_closeDrain P f.client.bufferQ (f.setLoopFn false) rfl
  have heffects : (f.closeAsyncLoop P).effects =
      (closeDrain P f.client.bufferQ (f.setLoopFn false)).effects ++ [.quit true] := rfl
  have hcontext' : (f.closeAsyncLoop P).client.curContext = none :=
    hfwd.curContext.trans hcontext
  refine ⟨wellFormed_of_none ?_ hcontext' hbuffer, ?_, ?_, hfwd.initialContextDestroyed.trans⟩
  · exact hfwd.pendingLoops.trans hpending
  · rw [sdLine_of_none hcontext', sdLine_of_none hcontext, heffects, sentPackets_append, hfwd.sent]
    have hbuffer' : (f.closeAsyncLoop P).client.bufferQ = [] := hbuffer
    simp [hbuffer', sentPackets, setLoopFn]
  · rw [heffects, freedPackets_append, hfwd.freed]
    simp [freedPackets, setLoopFn]

/-! ### The steps -/

/-- The packet that a label brings. -/
def arrival : Label π → List π
  | .packet pkt => [pkt]
  | _ => []

/-- The completions that discard a packet: `drop`, `close_drop`, and a failed future. -/
def isLossy : Label π → Bool
  | .loopDone (.action a) => !a.forwards
  | .loopDone .failed => true
  | _ => false

/-- What a step does to the line. -/
structure StepLine (f f' : SdAsyncFlowImpl σ π κ) (arrived lost : List π) : Prop where
  wellFormed : WellFormed f'
  line : LossyLine (sdLine f ++ arrived) (sdLine f') lost
  freed : freedPackets f'.effects = freedPackets f.effects ++ lost

/-- A step that only adds packets to the end of the line. -/
theorem ExtendsLine.stepLine {f f' : SdAsyncFlowImpl σ π κ} {pkts : List π}
    (h : ExtendsLine f f' pkts) : StepLine f f' pkts [] where
  wellFormed := h.wellFormed
  line := by
    rw [h.line]
    exact .refl _
  freed := by rw [h.freed, List.append_nil]

/-- What the post handler does after the context was released. -/
theorem extendsLine_release (f : SdAsyncFlowImpl σ π κ) (action : AfAction)
    (hpending : f.pendingLoops = 0) (hcontext : f.client.curContext = none)
    (hloop : f.client.loopFn = true) :
    ExtendsLine f
      (if action.closes then f.closeAsyncLoop P else postDrain P f.client.bufferQ f) [] := by
  split
  · exact extendsLine_closeAsyncLoop P f hpending hcontext
  · exact extendsLine_postDrain P f.client.bufferQ f rfl hpending hcontext hloop

/-- The line of a flow with a context. -/
theorem sdLine_of_some {f : SdAsyncFlowImpl σ π κ} {context : PacketContext π}
    (h : f.client.curContext = some context) :
    sdLine f =
      sentPackets f.effects ++ context.pkt.toList ++ bufferedPackets f.client.bufferQ := by
  simp [sdLine, contextPacket, h]

/-- The post handler of `forward` and `close_forward` sends the packet of the context. -/
theorem extendsLine_loopFnPostHandler (f : SdAsyncFlowImpl σ π κ) (action : AfAction)
    {context : PacketContext π} (hcontext : f.client.curContext = some context)
    (hpending : f.pendingLoops = 0) (hloop : f.client.loopFn = true)
    (hforward : action.forwards = true) :
    ExtendsLine f (f.loopFnPostHandler P action) [] := by
  have hfwd := forwards_internalPacketForward f context.pkt
  obtain ⟨hwf, hline, hfreed, hdestroyed⟩ := extendsLine_release P
    ((f.internalPacketForward context.pkt).setCurContext none) action
    (hfwd.pendingLoops.trans hpending) rfl (hfwd.loopFn.trans hloop)
  rw [loopFnPostHandler, hcontext]
  dsimp only
  rw [if_pos hforward]
  refine ⟨hwf, ?_, hfreed.trans hfwd.freed,
    fun h => hdestroyed (hfwd.initialContextDestroyed.trans h)⟩
  rw [hline, sdLine_of_none rfl, sdLine_of_some hcontext, setCurContext, hfwd.sent]
  simp

/-- Freeing a packet sends nothing. -/
theorem sentPackets_freePacket (f : SdAsyncFlowImpl σ π κ) (pkt : RtePacket π)
    (cause : FreeCause) : sentPackets (f.freePacket pkt cause).effects = sentPackets f.effects := by
  unfold freePacket
  split <;> simp [sentPackets]

/-- The freed packet comes last. -/
theorem freedPackets_freePacket (f : SdAsyncFlowImpl σ π κ) (pkt : RtePacket π)
    (cause : FreeCause) :
    freedPackets (f.freePacket pkt cause).effects = freedPackets f.effects ++ pkt.toList := by
  unfold freePacket
  split <;> simp [freedPackets]

/-- Freeing a packet completes no loop function. -/
theorem pendingLoops_freePacket (f : SdAsyncFlowImpl σ π κ) (pkt : RtePacket π)
    (cause : FreeCause) : (f.freePacket pkt cause).pendingLoops = f.pendingLoops := by
  unfold freePacket
  split <;> rfl

/-- Freeing a packet leaves the flag of the initial context as it is. -/
theorem initialContextDestroyed_freePacket (f : SdAsyncFlowImpl σ π κ) (pkt : RtePacket π)
    (cause : FreeCause) :
    (f.freePacket pkt cause).initialContextDestroyed = f.initialContextDestroyed := by
  unfold freePacket
  split <;> rfl

/-- The post handler of `drop` and `close_drop` cuts the packet of the context out of the line. -/
theorem stepLine_loopFnPostHandler (f : SdAsyncFlowImpl σ π κ) (action : AfAction)
    {context : PacketContext π} (hcontext : f.client.curContext = some context)
    (hpending : f.pendingLoops = 0) (hloop : f.client.loopFn = true)
    (hdrop : action.forwards = false) :
    StepLine f (f.loopFnPostHandler P action) [] context.pkt.toList := by
  obtain ⟨hwf, hline, hfreed, -⟩ := extendsLine_release P
    ((f.freePacket context.pkt .dropAction).setCurContext none) action
    ((pendingLoops_freePacket f context.pkt .dropAction).trans hpending) rfl
    (by simp [setCurContext, hloop])
  have hkeep : ¬ action.forwards = true := by simp [hdrop]
  rw [loopFnPostHandler, hcontext]
  dsimp only
  rw [if_neg hkeep]
  refine ⟨hwf, ?_, ?_⟩
  · rw [hline, sdLine_of_some hcontext, sdLine_of_none rfl, setCurContext,
      sentPackets_freePacket, client_freePacket, List.append_nil, List.append_nil]
    exact .lose _ _ _
  · rw [hfreed, setCurContext, freedPackets_freePacket]

/-- A row of frees. -/
theorem freedPackets_map_free (pkts : List π) (cause : FreeCause) :
    freedPackets (pkts.map (Effect.free · true cause) : List (Effect π κ)) = pkts := by
  simp [freedPackets]

/-- A row of frees sends nothing. -/
theorem sentPackets_map_free (pkts : List π) (cause : FreeCause) :
    sentPackets (pkts.map (Effect.free · true cause) : List (Effect π κ)) = [] := by
  simp [sentPackets]

/-- The exception handler frees everything that the flow holds. -/
theorem asyncLoopExceptionHandler_eq (f : SdAsyncFlowImpl σ π κ) :
    f.asyncLoopExceptionHandler =
      { f with
          client := { f.client with curContext := none, loopFn := false, bufferQ := [] }
          initialContextDestroyed := false
          effects := f.effects ++
            ((f.contextPacket.toList ++ bufferedPackets f.client.bufferQ).map
              (.free · true .exception)) ++ [.quit false] } := by
  have hcontext : contextPacket { f with initialContextDestroyed := false } = f.contextPacket := rfl
  unfold asyncLoopExceptionHandler
  dsimp only
  rw [discardBuffer_eq _ _ rfl, hcontext]
  cases h : f.contextPacket <;> simp [freePacket, setCurContext, setLoopFn]

/-- The exception handler cuts out all packets that the flow holds. -/
theorem stepLine_asyncLoopExceptionHandler (f : SdAsyncFlowImpl σ π κ)
    (hpending : f.pendingLoops = 0) :
    StepLine f f.asyncLoopExceptionHandler []
      (f.contextPacket.toList ++ bufferedPackets f.client.bufferQ) := by
  rw [asyncLoopExceptionHandler_eq]
  refine ⟨wellFormed_of_none hpending rfl rfl, ?_, ?_⟩
  · have hlose := LossyLine.lose (sentPackets f.effects)
      (f.contextPacket.toList ++ bufferedPackets f.client.bufferQ) []
    rw [sdLine, sdLine_of_none rfl, sentPackets_append, sentPackets_append, sentPackets_map_free]
    simpa [sentPackets] using hlose
  · rw [freedPackets_append, freedPackets_append, freedPackets_map_free]
    simp [freedPackets]

/-- A packet that arrives at an open flow joins the end of the line. -/
theorem extendsLine_handlePacketSend {f : SdAsyncFlowImpl σ π κ} (hf : WellFormed f)
    (hopen : f.client.pprClose = false) (hdestroyed : f.initialContextDestroyed = true)
    (pkt : RtePacket π) : ExtendsLine f (f.handlePacketSend P pkt) pkt.toList := by
  rw [handlePacketSend, if_neg (by simp [hopen]), if_neg (by simp [hdestroyed])]
  cases hcontext : f.client.curContext with
  | some context =>
    rw [if_pos (hf.loopFn (by simp [hcontext]))]
    refine ⟨⟨hf.pending, hf.loopFn, ?_⟩, ?_, rfl, id⟩
    · simp [setBufferQ, hcontext]
    · simp [sdLine, setBufferQ, contextPacket]
  | none =>
    have hpending : f.pendingLoops = 0 := by simpa [hcontext] using hf.pending
    have hbuffer := hf.bufferQ hcontext
    split
    case isTrue hloop =>
      have hpre := forwards_preprocessPacket P f pkt
      dsimp only
      split
      · have hfwd := hpre.trans (forwards_internalPacketForward _ pkt)
        refine ⟨wellFormed_of_none (hfwd.pendingLoops.trans hpending)
          (hfwd.curContext.trans hcontext) (by simpa using hbuffer), ?_, hfwd.freed,
          hfwd.initialContextDestroyed.trans⟩
        rw [sdLine_of_none (hfwd.curContext.trans hcontext), sdLine_of_none hcontext, hfwd.sent]
        simp [hbuffer]
      · obtain ⟨hwf, hline, heffects, hinitial⟩ := startLoop_spec
          ⟨pkt, (f.preprocessPacket P pkt).2, true⟩ (hpre.pendingLoops.trans hpending)
          (hpre.loopFn.trans hloop)
        refine ⟨hwf, ?_, by rw [heffects, hpre.freed],
          (hinitial.trans hpre.initialContextDestroyed).trans⟩
        rw [hline, hpre.sent, sdLine_of_none hcontext]
        simp [hbuffer]
    case isFalse =>
      have hfwd := forwards_preprocessAndForward P f pkt
      refine ⟨wellFormed_of_none (hfwd.pendingLoops.trans hpending)
        (hfwd.curContext.trans hcontext) (by simpa using hbuffer), ?_, hfwd.freed,
        hfwd.initialContextDestroyed.trans⟩
      rw [sdLine_of_none (hfwd.curContext.trans hcontext), sdLine_of_none hcontext, hfwd.sent]
      simp [hbuffer]

/-- A packet that is freed on arrival never was in the line. -/
@[simp] theorem sdLine_freePacket (f : SdAsyncFlowImpl σ π κ) (pkt : RtePacket π)
    (cause : FreeCause) : sdLine (f.freePacket pkt cause) = sdLine f := by
  simp [sdLine, sentPackets_freePacket, contextPacket]

/-- A flow that does not take the packet frees it. -/
theorem stepLine_freePacket {f : SdAsyncFlowImpl σ π κ} (hf : WellFormed f) (pkt : RtePacket π)
    (cause : FreeCause) : StepLine f (f.freePacket pkt cause) pkt.toList pkt.toList where
  wellFormed := by
    refine ⟨?_, ?_, ?_⟩
    · rw [pendingLoops_freePacket, client_freePacket]
      exact hf.pending
    · rw [client_freePacket]
      exact hf.loopFn
    · rw [client_freePacket]
      exact hf.bufferQ
  line := by
    have hlose := LossyLine.lose (sdLine f) pkt.toList []
    simpa using hlose
  freed := freedPackets_freePacket f pkt cause

/-- The passive close leaves the line alone. Its context has no packet. -/
theorem extendsLine_pprPassiveClose {f : SdAsyncFlowImpl σ π κ} (hf : WellFormed f) :
    ExtendsLine f f.pprPassiveClose [] := by
  have hclose := forwards_closePprAndRemoveFlowKey f
  unfold pprPassiveClose
  dsimp only
  split
  case isTrue h =>
    rw [Bool.and_eq_true, Option.isNone_iff_eq_none, hclose.curContext] at h
    obtain ⟨hloop, hcontext⟩ := h
    have hpending : f.pendingLoops = 0 := by simpa [hcontext] using hf.pending
    obtain ⟨hwf, hline, heffects, hinitial⟩ := startLoop_spec (closeContext : PacketContext π)
      (hclose.pendingLoops.trans hpending) hloop
    refine ⟨hwf, ?_, by rw [heffects, hclose.freed],
      (hinitial.trans hclose.initialContextDestroyed).trans⟩
    rw [hline, hclose.sent, sdLine_of_none hcontext]
    simp [closeContext]
  case isFalse =>
    refine ⟨⟨?_, ?_, ?_⟩, ?_, hclose.freed, hclose.initialContextDestroyed.trans⟩
    · rw [hclose.pendingLoops, hclose.curContext]
      exact hf.pending
    · rw [hclose.curContext, hclose.loopFn]
      exact hf.loopFn
    · rw [hclose.curContext, bufferQ_closePprAndRemoveFlowKey]
      exact hf.bufferQ
    · simp [sdLine, contextPacket, hclose.sent, hclose.curContext]

/-- A change that concerns neither the context, the buffer nor the packets. -/
theorem extendsLine_of_eq {f f' : SdAsyncFlowImpl σ π κ} (hf : WellFormed f)
    (hcontext : f'.client.curContext = f.client.curContext)
    (hbuffer : f'.client.bufferQ = f.client.bufferQ) (hpending : f'.pendingLoops = f.pendingLoops)
    (heffects : f'.effects = f.effects) (hloop : f.client.loopFn = true → f'.client.loopFn = true)
    (hinitial : f.initialContextDestroyed = true → f'.initialContextDestroyed = true) :
    ExtendsLine f f' [] := by
  refine ⟨⟨?_, ?_, ?_⟩, ?_, by rw [heffects], hinitial⟩
  · rw [hpending, hcontext]
    exact hf.pending
  · rw [hcontext]
    exact fun h => hloop (hf.loopFn h)
  · rw [hcontext, hbuffer]
    exact hf.bufferQ
  · simp [sdLine, contextPacket, hcontext, hbuffer, heffects]

/-- A completion finds the context whose loop was pending. -/
theorem WellFormed.context_of_pending {f : SdAsyncFlowImpl σ π κ} (hf : WellFormed f)
    (h : 0 < f.pendingLoops) :
    ∃ context, f.client.curContext = some context ∧ f.pendingLoops - 1 = 0 ∧
      f.client.loopFn = true := by
  have hpending := hf.pending
  cases hcontext : f.client.curContext with
  | none =>
    simp [hcontext] at hpending
    omega
  | some context =>
    simp [hcontext] at hpending
    exact ⟨context, rfl, by omega, hf.loopFn (by simp [hcontext])⟩

/-- The step of a completion. -/
theorem step_loopDone {f f' : SdAsyncFlowImpl σ π κ} {result : LoopResult}
    (h : f.step P (.loopDone result) = some f') :
    0 < f.pendingLoops ∧
      f' = loopDone P { f with pendingLoops := f.pendingLoops - 1 } result := by
  rw [step] at h
  split at h
  · exact ⟨by assumption, (Option.some.inj h).symm⟩
  · cases h

/-- A packet that arrives at a closed flow. -/
theorem step_packet_closed {f f' : SdAsyncFlowImpl σ π κ} {l : Label π}
    (h : f.step P l = some f') (hpacket : arrival l ≠ []) (hclosed : f.client.pprClose = true) :
    ∃ pkt, f' = f.freePacket pkt .closedUnit := by
  cases l with
  | packet pkt =>
    rw [step, handlePacketSend, if_pos hclosed] at h
    exact ⟨some pkt, (Option.some.inj h).symm⟩
  | passiveClose | register | unregister | runLoop | destroyInitialContext | loopDone =>
    exact absurd rfl hpacket

/-- A step that loses nothing appends what arrives to the line. -/
theorem extendsLine_step {f f' : SdAsyncFlowImpl σ π κ} {l : Label π} (hf : WellFormed f)
    (h : f.step P l = some f') (hlossy : isLossy l = false)
    (haccept : arrival l = [] ∨
      f.client.pprClose = false ∧ f.initialContextDestroyed = true) :
    ExtendsLine f f' (arrival l) := by
  cases l with
  | packet pkt =>
    cases h
    obtain ⟨hopen, hdestroyed⟩ := haccept.resolve_left (by simp [arrival])
    exact extendsLine_handlePacketSend P hf hopen hdestroyed (some pkt)
  | passiveClose =>
    cases h
    exact extendsLine_pprPassiveClose hf
  | register ev =>
    cases h
    exact extendsLine_of_eq hf rfl rfl rfl rfl id id
  | unregister ev =>
    cases h
    exact extendsLine_of_eq hf rfl rfl rfl rfl id id
  | runLoop =>
    cases h
    exact extendsLine_of_eq hf rfl rfl rfl rfl (fun _ => rfl) id
  | destroyInitialContext =>
    cases h
    exact extendsLine_of_eq hf rfl rfl rfl rfl id (fun _ => rfl)
  | loopDone result =>
    obtain ⟨hpos, rfl⟩ := step_loopDone P h
    obtain ⟨context, hcontext, hpending, hloop⟩ := hf.context_of_pending hpos
    cases result with
    | failed => cases hlossy
    | action a =>
      have hforward : a.forwards = true := by simpa [isLossy] using hlossy
      have hpost := extendsLine_loopFnPostHandler P { f with pendingLoops := f.pendingLoops - 1 } a
        hcontext hpending hloop hforward
      exact ⟨hpost.wellFormed, hpost.line, hpost.freed, hpost.initialContextDestroyed⟩

/-- A step appends what arrives to the line, and it frees what it cuts out. -/
theorem stepLine_step {f f' : SdAsyncFlowImpl σ π κ} {l : Label π} (hf : WellFormed f)
    (h : f.step P l = some f') : ∃ lost, StepLine f f' (arrival l) lost := by
  by_cases hkeep : isLossy l = false ∧
      (arrival l = [] ∨ f.client.pprClose = false ∧ f.initialContextDestroyed = true)
  · exact ⟨[], (extendsLine_step P hf h hkeep.1 hkeep.2).stepLine⟩
  · cases l with
    | packet pkt =>
      cases h
      refine ⟨[pkt], ?_⟩
      rw [handlePacketSend]
      split
      · exact stepLine_freePacket hf (some pkt) _
      · split
        · exact stepLine_freePacket hf (some pkt) _
        · simp_all [isLossy]
    | loopDone result =>
      obtain ⟨hpos, rfl⟩ := step_loopDone P h
      obtain ⟨context, hcontext, hpending, hloop⟩ := hf.context_of_pending hpos
      cases result with
      | failed =>
        have hfail := stepLine_asyncLoopExceptionHandler
          { f with pendingLoops := f.pendingLoops - 1 } hpending
        exact ⟨_, hfail.wellFormed, hfail.line, hfail.freed⟩
      | action a =>
        have hdrop : a.forwards = false := by simpa [isLossy, arrival] using hkeep
        have hpost := stepLine_loopFnPostHandler P { f with pendingLoops := f.pendingLoops - 1 } a
          hcontext hpending hloop hdrop
        exact ⟨_, hpost.wellFormed, hpost.line, hpost.freed⟩
    | passiveClose | register | unregister | runLoop | destroyInitialContext =>
      simp [isLossy, arrival] at hkeep

/-! ### The runs -/

/-- A flow together with what a run has seen so far: the packets that arrived, those of them that
arrived while `ppr_close` was false, and whether no completion has discarded a packet. -/
structure SdTrace (σ π κ : Type) where
  flow : SdAsyncFlowImpl σ π κ
  arrived : List π
  accepted : List π
  lossless : Bool
  deriving DecidableEq, Repr

/-- The trace of a new flow. -/
def SdTrace.create (direction : Nat) (key : κ) : SdTrace σ π κ :=
  ⟨.create P direction key, [], [], true⟩

/-- A step of the flow, recorded. -/
def SdTrace.step (t : SdTrace σ π κ) (l : Label π) : Option (SdTrace σ π κ) :=
  (t.flow.step P l).map fun f =>
    { flow := f
      arrived := t.arrived ++ arrival l
      accepted := t.accepted ++ (if t.flow.client.pprClose then [] else arrival l)
      lossless := t.lossless && !isLossy l }

/-- The invariant of a trace. -/
structure SdTrace.Ordered (t : SdTrace σ π κ) : Prop where
  wellFormed : WellFormed t.flow
  line : LossyLine t.arrived (sdLine t.flow) (freedPackets t.flow.effects)
  accepted : t.lossless = true → t.accepted = sdLine t.flow

/-- A new flow has got no packets. -/
theorem SdTrace.ordered_create (direction : Nat) (key : κ) :
    (SdTrace.create P direction key).Ordered where
  wellFormed := wellFormed_of_none rfl rfl rfl
  line := .refl []
  accepted := fun _ => rfl

/-- What a step adds to the record of a run. -/
theorem SdTrace.step_eq_some {t t' : SdTrace σ π κ} {l : Label π} (h : t.step P l = some t') :
    t.flow.step P l = some t'.flow ∧ t'.arrived = t.arrived ++ arrival l ∧
      t'.accepted = t.accepted ++ (if t.flow.client.pprClose then [] else arrival l) ∧
      t'.lossless = (t.lossless && !isLossy l) := by
  obtain ⟨f, hf, rfl⟩ := Option.map_eq_some_iff.mp h
  exact ⟨hf, rfl, rfl, rfl⟩

/-- A step keeps the invariant when it brings no packet, or when the initial context is gone. -/
theorem SdTrace.ordered_step {t t' : SdTrace σ π κ} {l : Label π} (ht : t.Ordered)
    (h : t.step P l = some t')
    (hready : arrival l = [] ∨ (t.lossless = true → t.flow.initialContextDestroyed = true)) :
    t'.Ordered := by
  obtain ⟨hflow, harrived, haccepted, hlossless⟩ := t.step_eq_some P h
  obtain ⟨lost, hstep⟩ := stepLine_step P ht.wellFormed hflow
  refine ⟨hstep.wellFormed, ?_, ?_⟩
  · rw [harrived, hstep.freed]
    exact ht.line.trans hstep.line
  · intro hkeep
    rw [hlossless, Bool.and_eq_true] at hkeep
    have hlossy : isLossy l = false := by simpa using hkeep.2
    rw [haccepted, ht.accepted hkeep.1]
    by_cases hempty : arrival l = []
    · rw [(extendsLine_step P ht.wellFormed hflow hlossy (.inl hempty)).line, hempty, ite_self]
    · have hdestroyed := hready.resolve_left hempty hkeep.1
      split
      case isFalse hopen =>
        rw [(extendsLine_step P ht.wellFormed hflow hlossy
          (.inr ⟨by simpa using hopen, hdestroyed⟩)).line]
      case isTrue hclosed =>
        obtain ⟨pkt, hfree⟩ := step_packet_closed P hflow hempty hclosed
        rw [hfree, sdLine_freePacket, List.append_nil]

/-- As long as nothing was discarded, no completion failed, so the initial context stays gone. -/
theorem SdTrace.destroyed_step {t t' : SdTrace σ π κ} {l : Label π} (ht : t.Ordered)
    (h : t.step P l = some t')
    (hready : t.lossless = true → t.flow.initialContextDestroyed = true) :
    t'.lossless = true → t'.flow.initialContextDestroyed = true := by
  obtain ⟨hflow, -, -, hlossless⟩ := t.step_eq_some P h
  intro hkeep
  rw [hlossless, Bool.and_eq_true] at hkeep
  have hdestroyed := hready hkeep.1
  have hlossy : isLossy l = false := by simpa using hkeep.2
  by_cases haccept : arrival l = [] ∨
      t.flow.client.pprClose = false ∧ t.flow.initialContextDestroyed = true
  · exact (extendsLine_step P ht.wellFormed hflow hlossy haccept).initialContextDestroyed hdestroyed
  · rw [not_or] at haccept
    obtain ⟨pkt, hfree⟩ :=
      step_packet_closed P hflow haccept.1 (by simpa [hdestroyed] using haccept.2)
    rw [hfree, initialContextDestroyed_freePacket]
    exact hdestroyed

/-- The packets of a flow leave in the order in which they arrive, and none leaves twice. Without
`drop`, `close_drop` and exceptions, the accepted packets are those sent, then the one of the
current context, then those in the buffer. -/
theorem sdAsyncFlow_order (direction : Nat) (key : κ) (before after : List (Label π))
    (hbefore : ∀ l ∈ before, arrival l = []) {t : SdTrace σ π κ}
    (h : run (SdTrace.step P) (.create P direction key)
      (before ++ .destroyInitialContext :: after) = some t) :
    (sentPackets t.flow.effects).Sublist t.arrived ∧
      (t.lossless = true →
        t.accepted =
          sentPackets t.flow.effects ++ t.flow.contextPacket.toList ++
            bufferedPackets t.flow.client.bufferQ) := by
  obtain ⟨t₁, hrun₁, hrest⟩ := run_append.mp h
  obtain ⟨t₂, hdestroy, hrun₂⟩ := run_cons.mp hrest
  have h₁ : t₁.Ordered :=
    run_invariant SdTrace.Ordered
      (fun l hl _ _ ht hstep => SdTrace.ordered_step P ht hstep (.inl (hbefore l hl)))
      (SdTrace.ordered_create P direction key) hrun₁
  have h₂ : t₂.Ordered := SdTrace.ordered_step P h₁ hdestroy (.inl rfl)
  have hready₂ : t₂.flow.initialContextDestroyed = true := by
    rw [← Option.some.inj (SdTrace.step_eq_some P hdestroy).1]
    rfl
  have ht := run_invariant
    (fun t => t.Ordered ∧ (t.lossless = true → t.flow.initialContextDestroyed = true))
    (fun l _ _ _ ht hstep => ⟨SdTrace.ordered_step P ht.1 hstep (.inr ht.2),
      SdTrace.destroyed_step P ht.1 hstep ht.2⟩) ⟨h₂, fun _ => hready₂⟩ hrun₂
  refine ⟨?_, ht.1.accepted⟩
  have hsent : (sentPackets t.flow.effects).Sublist (sdLine t.flow) := by
    rw [sdLine, List.append_assoc]
    exact List.sublist_append_left _ _
  exact hsent.trans ht.1.line.sublist

/-- A preprocessor over numbers: packets from 10 on raise event 0, and packets from 100 on close
the flow. The reverse key of `k` is `k + 1000`. -/
def numberPpr : Ppr Unit Nat Nat where
  init _ := ()
  handlePacketSend _ pkt := ((), events pkt)
  handlePacketRecv _ pkt := ((), events pkt)
  getReverseFlowKey _ pkt := pkt.getD 0 + 1000
where
  events (pkt : RtePacket Nat) : GeneratedEvents :=
    if 100 ≤ pkt.getD 0 then GeneratedEvents.empty.closeEventHappen
    else if 10 ≤ pkt.getD 0 then GeneratedEvents.empty.eventHappen 0
    else .empty

/-- Packet 1 passes at once, 10 runs the loop, and the packets behind it wait in the buffer. The
completion forwards 10 and 2, and 11 becomes the next context. -/
theorem sdAsyncFlow_order_buffered :
    ∃ t, run (SdTrace.step numberPpr) (.create numberPpr 0 7)
        ([.register 0, .runLoop] ++ .destroyInitialContext ::
          [.packet 1, .packet 10, .packet 2, .packet 11, .packet 3,
            .loopDone (.action .forward)]) = some t ∧
      t.lossless = true ∧ sentPackets t.flow.effects = [1, 10, 2] ∧
      (sentPackets t.flow.effects).Sublist t.arrived ∧
      (t.lossless = true →
        t.accepted =
          sentPackets t.flow.effects ++ t.flow.contextPacket.toList ++
            bufferedPackets t.flow.client.bufferQ) :=
  ⟨_, rfl, rfl, rfl, sdAsyncFlow_order numberPpr 0 7 [.register 0, .runLoop]
    [.packet 1, .packet 10, .packet 2, .packet 11, .packet 3, .loopDone (.action .forward)]
    (by decide) rfl⟩

end Netstar.Proofs.AsyncFlow
