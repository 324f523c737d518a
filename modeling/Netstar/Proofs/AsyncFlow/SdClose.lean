import Netstar.Proofs.AsyncFlow.SdAsyncFlow

/-!
# `Netstar.Proofs.AsyncFlow.SdClose`: when a running loop learns that its flow is closed

`ToldOfClose` says that a closed flow with an installed loop has a context, so its loop function
is pending and gets to see the close event. Every function of the flow keeps this, with one
exception. `run_async_loop` installs a loop on a flow that is closed already, because its
assertion `!_client.ppr_close` is compiled out. The expiry timer closes such a flow while the flow
waits in `_new_ic_q`, and nothing will ever invoke its loop.

`toldOfClose_iff` is the exact condition for a run.
-/

set_option autoImplicit false

namespace Netstar.Proofs.AsyncFlow

open Netstar.Lib
open Netstar.Spec.AsyncFlow
open Netstar.Spec.AsyncFlow.SdAsyncFlowImpl

variable {σ π κ : Type}

/-- A closed flow with an installed loop has an engaged context. -/
def ToldOfClose (f : SdAsyncFlowImpl σ π κ) : Prop :=
  f.client.pprClose = true → f.client.loopFn = true → f.client.curContext.isSome = true

/-- A loop is installed only on a flow that is open, or that has an engaged context. -/
def LoopOnOpenFlow (f : SdAsyncFlowImpl σ π κ) (l : Label π) : Prop :=
  l = .runLoop → f.client.pprClose = false ∨ f.client.curContext.isSome = true

/-- Without a loop there is nobody to tell. -/
theorem toldOfClose_of_loopFn {f : SdAsyncFlowImpl σ π κ} (h : f.client.loopFn = false) :
    ToldOfClose f := by
  intro _ hloop
  rw [h] at hloop
  cases hloop

/-- A pending iteration is followed by the close context. -/
theorem toldOfClose_of_context {f : SdAsyncFlowImpl σ π κ}
    (h : f.client.curContext.isSome = true) : ToldOfClose f :=
  fun _ _ => h

/-- An open flow has nothing to tell. -/
theorem toldOfClose_of_open {f : SdAsyncFlowImpl σ π κ} (h : f.client.pprClose = false) :
    ToldOfClose f := by
  intro hclose
  rw [h] at hclose
  cases hclose

/-! ### The functions of a flow -/

/-- The exception handler removes the loop. -/
theorem toldOfClose_asyncLoopExceptionHandler (f : SdAsyncFlowImpl σ π κ) :
    ToldOfClose f.asyncLoopExceptionHandler := by
  apply toldOfClose_of_loopFn
  rw [asyncLoopExceptionHandler_eq]

/-- The call of the loop function has a context, or there is no loop. -/
theorem toldOfClose_startLoop (f : SdAsyncFlowImpl σ π κ) (context : PacketContext π) :
    ToldOfClose (f.startLoop context) := by
  by_cases hloop : f.client.loopFn = true
  · rw [startLoop_eq context hloop]
    exact toldOfClose_of_context rfl
  · have hthrow : f.startLoop context =
        (f.setCurContext (some context)).asyncLoopExceptionHandler := if_neg hloop
    rw [hthrow]
    exact toldOfClose_asyncLoopExceptionHandler _

variable (P : Ppr σ π κ)

/-- A packet without a registered event does not close the flow, since the close event is
registered. -/
theorem pprClose_preprocessPacket {f : SdAsyncFlowImpl σ π κ} {pkt : RtePacket π}
    (h : (f.preprocessPacket P pkt).2.noEvent = true) :
    (f.preprocessPacket P pkt).1.client.pprClose = f.client.pprClose := by
  unfold preprocessPacket at h ⊢
  dsimp only at h ⊢
  split
  case isTrue hclose =>
    rw [FilteredEvents.noEvent_eq_false_of_onCloseEvent hclose] at h
    cases h
  case isFalse => rfl

/-- The drain ends with a context, or with an open flow. -/
theorem toldOfClose_postDrain (q : List (BufferedPacket π)) (f : SdAsyncFlowImpl σ π κ) :
    ToldOfClose (postDrain P q f) := by
  induction q generalizing f with
  | nil =>
    rw [postDrain]
    split
    case isTrue => exact toldOfClose_startLoop f closeContext
    case isFalse hopen => exact toldOfClose_of_open (by simpa using hopen)
  | cons b q ih =>
    rw [postDrain]
    dsimp only
    split
    · exact ih _
    · exact toldOfClose_startLoop _ _

/-- `close_async_loop` removes the loop. -/
theorem toldOfClose_closeAsyncLoop (f : SdAsyncFlowImpl σ π κ) :
    ToldOfClose (f.closeAsyncLoop P) :=
  toldOfClose_of_loopFn (forwards_closeDrain P f.client.bufferQ (f.setLoopFn false)).loopFn

/-- A completed iteration tells the loop of a close. -/
theorem toldOfClose_loopFnPostHandler {f : SdAsyncFlowImpl σ π κ} (hf : ToldOfClose f)
    (action : AfAction) : ToldOfClose (f.loopFnPostHandler P action) := by
  rw [loopFnPostHandler]
  split
  · exact hf
  · dsimp only
    split
    · exact toldOfClose_closeAsyncLoop P _
    · exact toldOfClose_postDrain P _ _

/-- A close event of a packet that arrives is in its context. -/
theorem toldOfClose_handlePacketSend {f : SdAsyncFlowImpl σ π κ} (hf : ToldOfClose f)
    (pkt : RtePacket π) : ToldOfClose (f.handlePacketSend P pkt) := by
  have hfree (cause : FreeCause) : ToldOfClose (f.freePacket pkt cause) := by
    rw [ToldOfClose, client_freePacket]
    exact hf
  rw [handlePacketSend]
  split
  case isTrue => exact hfree _
  case isFalse hopen =>
    split
    case isTrue => exact hfree _
    case isFalse =>
      split
      case isTrue =>
        split
        case h_1 =>
          dsimp only
          split
          case isTrue hevent =>
            apply toldOfClose_of_open
            rw [client_internalPacketForward, pprClose_preprocessPacket P hevent]
            simpa using hopen
          case isFalse => exact toldOfClose_startLoop _ _
        case h_2 context hcontext => exact toldOfClose_of_context (by simp [setBufferQ, hcontext])
      case isFalse hloop =>
        apply toldOfClose_of_loopFn
        rw [(forwards_preprocessAndForward P f pkt).loopFn]
        simpa using hloop

/-- The timer tells a loop that has no context. -/
theorem toldOfClose_pprPassiveClose (f : SdAsyncFlowImpl σ π κ) :
    ToldOfClose f.pprPassiveClose := by
  unfold pprPassiveClose
  dsimp only
  split
  case isTrue => exact toldOfClose_startLoop _ _
  case isFalse h =>
    intro _ hloop
    simpa [hloop, Option.isSome_iff_ne_none] using h

/-! ### The runs -/

/-- A step keeps `ToldOfClose` exactly if it does not install a loop on a closed flow. -/
theorem toldOfClose_step {f f' : SdAsyncFlowImpl σ π κ} {l : Label π} (hf : ToldOfClose f)
    (h : f.step P l = some f') : ToldOfClose f' ↔ LoopOnOpenFlow f l := by
  cases l with
  | runLoop =>
    cases h
    constructor
    · intro htold _
      cases hclose : f.client.pprClose with
      | false => exact .inl rfl
      | true => exact .inr (htold hclose rfl)
    · intro hopen
      rcases hopen rfl with hopen | hcontext
      · exact toldOfClose_of_open hopen
      · exact toldOfClose_of_context hcontext
  | packet pkt =>
    cases h
    exact iff_of_true (toldOfClose_handlePacketSend P hf _) nofun
  | passiveClose =>
    cases h
    exact iff_of_true (toldOfClose_pprPassiveClose f) nofun
  | register ev | unregister ev | destroyInitialContext =>
    cases h
    exact iff_of_true hf nofun
  | loopDone result =>
    obtain ⟨-, rfl⟩ := step_loopDone P h
    refine iff_of_true ?_ nofun
    cases result with
    | action a =>
      have hf' : ToldOfClose { f with pendingLoops := f.pendingLoops - 1 } := hf
      exact toldOfClose_loopFnPostHandler P hf' a
    | failed => exact toldOfClose_asyncLoopExceptionHandler _

/-- A run is told of every close exactly if it never installs a loop on a flow that is closed and
has no context. -/
theorem toldOfClose_iff (direction : Nat) (key : κ) (ls : List (Label π)) :
    Always (SdAsyncFlowImpl.step P) ToldOfClose (create P direction key) ls ↔
      Guarded (SdAsyncFlowImpl.step P) LoopOnOpenFlow (create P direction key) ls :=
  always_iff_guarded (fun _ => True) (fun _ _ _ _ _ _ => trivial)
    (fun _ _ _ _ hf h => toldOfClose_step P hf h) trivial (toldOfClose_of_open rfl) ls

/-- The timer closes a new flow, then its user installs a loop. The flow ends up closed with a
loop that has neither a context nor a pending call, its quit promise is not resolved, and the
initial packet is freed. -/
theorem not_toldOfClose_of_expired :
    ¬ Always (SdAsyncFlowImpl.step numberPpr) ToldOfClose (create numberPpr 0 7)
        [.passiveClose, .register 0, .runLoop, .destroyInitialContext, .packet 10] ∧
      ∃ f, run (SdAsyncFlowImpl.step numberPpr) (create numberPpr 0 7)
          [.passiveClose, .register 0, .runLoop, .destroyInitialContext, .packet 10] = some f ∧
        f.client.asyncLoopQuitPr = true ∧ f.pendingLoops = 0 ∧
        f.effects = [.removeMapping 7, .free 10 true .closedUnit] := by
  refine ⟨?_, _, rfl, rfl, rfl, rfl⟩
  rintro ⟨-, h⟩
  have hlast := (((h _ rfl).2 _ rfl).2 _ rfl).1
  exact absurd (hlast rfl rfl) (by decide)

end Netstar.Proofs.AsyncFlow
