import Netstar.Proofs.AsyncFlow.Drops
import Netstar.Proofs.AsyncFlow.Forwarding
import Netstar.Proofs.AsyncFlow.SdAsyncFlow

/-!
# `Netstar.Proofs.AsyncFlow.AsyncFlow`: packets cross the two work units in order

Each frame of the call stack has one lemma, and `stepOk_step` puts them together: a step keeps the
invariant, and it moves the lines of the two sides without reordering them. `asyncFlow_order` is
the result for every run.
-/

set_option autoImplicit false

namespace Netstar.Proofs.AsyncFlow

open Netstar.Lib
open Netstar.Spec.AsyncFlow
open Netstar.Spec.AsyncFlow.AsyncFlowImpl

variable {σ π κ : Type}

variable (P : Ppr σ π κ)

/-! ### The frames -/

/-- `loop_fn_post_handler` moves the packet out of the context. -/
theorem movedOut_context {f : AsyncFlowImpl σ π κ} {x : Bool} {c : PacketContext π}
    (hcontext : (f.getWorkUnit x).curContext = some c) (hpending : f.pendingLoops x = 0)
    (action : AfAction) :
    MovedOut x c.isSend c.pkt (.afterForward action) f
      ((f.setWorkUnit x { f.getWorkUnit x with curContext := some { c with pkt := none } }).push x
        (.afterForward action)) := by
  constructor
  case light =>
    rintro ⟨hbuffer, -⟩
    exact ⟨by simpa [push] using hbuffer, by simp [push]⟩
  all_goals simp [push, held, hcontext, contextHeld, UnitOk, hpending]

/-- A completed iteration keeps both lines, up to the packet that it drops. -/
theorem stepOk_loopFnPostHandler {f : AsyncFlowImpl σ π κ} (hopp : Opposed f) {x : Bool}
    {c : PacketContext π} (hcontext : (f.getWorkUnit x).curContext = some c)
    (hpending : f.pendingLoops x = 0) (hrest : RestOk f x f.stack) (action : AfAction) :
    StepOk f (f.loopFnPostHandler P x action) noArrival := by
  have hmoved := movedOut_context hcontext hpending action
  rw [loopFnPostHandler, hcontext]
  dsimp only
  split
  · exact hmoved.stepOk_internalPacketForward P trivial hopp hrest
  · exact hmoved.stepOk_freePacket hrest _

/-- The packets of `x` that a loop over a buffer frees. -/
theorem foldl_freePacket (q : List (BufferedPacket π)) (x : Bool) (cause : FreeCause)
    (f : AsyncFlowImpl σ π κ) :
    ∃ es, q.foldl (fun f b => f.freePacket b.pkt x b.isSend cause) f = f.emit es ∧
      (∀ d, sentWith d es = []) ∧ ∀ s, freedFrom (x == s) es = bufferHeld q s := by
  induction q generalizing f with
  | nil => exact ⟨[], by simp [emit], fun _ => rfl, fun _ => rfl⟩
  | cons b q ih =>
    obtain ⟨es, hes, hsent, hfreed⟩ := ih (f.freePacket b.pkt x b.isSend cause)
    refine ⟨b.pkt.toList.map (.free · (x == b.isSend) cause) ++ es, ?_, ?_, ?_⟩
    · rw [List.foldl_cons, hes]
      simp [freePacket, emit]
    · intro d
      simp [hsent]
    · intro s
      rw [freedFrom_append, hfreed, bufferHeld_cons, freedFrom_map_free]
      cases x <;> cases s <;> cases b.isSend <;> rfl

/-- The exception handler frees what the work unit holds. -/
theorem asyncLoopExceptionHandler_spec (f : AsyncFlowImpl σ π κ) (x : Bool) :
    ∃ es, f.asyncLoopExceptionHandler x =
        ({ f with initialContextDestroyed := false }.setWorkUnit x
          { f.getWorkUnit x with curContext := none, loopFn := false, bufferQ := [] }).emit es ∧
      (∀ d, sentWith d es = []) ∧ ∀ s, freedFrom (x == s) es = held (f.getWorkUnit x) s := by
  unfold asyncLoopExceptionHandler
  dsimp only
  generalize ({ f with initialContextDestroyed := false }.setWorkUnit x
    { f.getWorkUnit x with curContext := none, loopFn := false, bufferQ := [] }) = g
  cases hcontext : (f.getWorkUnit x).curContext with
  | none =>
    -- Without a context only the buffer is freed.
    obtain ⟨es, hes, hsent, hfreed⟩ :=
      foldl_freePacket (f.getWorkUnit x).bufferQ x .exception g
    refine ⟨es ++ [.quit false], ?_, ?_, ?_⟩
    · rw [Option.elim_none, hes]
      simp [emit]
    · intro d
      rw [sentWith_append, hsent]
      rfl
    · intro s
      rw [freedFrom_append, hfreed, held, hcontext]
      simp [freedFrom]
  | some c =>
    -- The packet of the context is freed before those of the buffer.
    obtain ⟨es, hes, hsent, hfreed⟩ := foldl_freePacket (f.getWorkUnit x).bufferQ x .exception
      (g.freePacket c.pkt x c.isSend .exception)
    refine ⟨c.pkt.toList.map (.free · (x == c.isSend) .exception) ++ (es ++ [.quit false]),
      ?_, ?_, ?_⟩
    · rw [Option.elim_some, hes]
      simp [emit, freePacket]
    · intro d
      rw [sentWith_append, sentWith_append, hsent, sentWith_map_free]
      rfl
    · intro s
      rw [freedFrom_append, freedFrom_append, hfreed, held, hcontext, freedFrom_map_free]
      have hquit : freedFrom (x == s) ([.quit false] : List (Effect π κ)) = [] := rfl
      rw [hquit, List.append_nil, contextHeld]
      cases x <;> cases s <;> cases c.isSend <;> rfl

/-- The exception handler cuts out what its work unit holds. -/
theorem stepOk_asyncLoopExceptionHandler {f : AsyncFlowImpl σ π κ} {x : Bool}
    (hpending : f.pendingLoops x = 0) (hrest : RestOk f x f.stack) :
    StepOk f (f.asyncLoopExceptionHandler x) noArrival := by
  obtain ⟨es, hes, hsent, hfreed⟩ := asyncLoopExceptionHandler_spec f x
  generalize hg : ({ f with initialContextDestroyed := false }.setWorkUnit x
    { f.getWorkUnit x with curContext := none, loopFn := false, bufferQ := [] }) = g at hes
  have hunit : g.getWorkUnit x =
      { f.getWorkUnit x with curContext := none, loopFn := false, bufferQ := [] } := by
    simp [← hg]
  have hother : g.getWorkUnit (!x) = f.getWorkUnit (!x) := by
    rw [← hg, getWorkUnit_setWorkUnit_not]
    rfl
  have heffects : g.effects = f.effects := by simp [← hg]
  have hloops : g.pendingLoops = f.pendingLoops := by simp [← hg]
  have hstack : g.stack = f.stack := by simp [← hg]
  rw [hes]
  refine ⟨stackOk_return (x := x) ?_ ?_, ?_, forall_side x ⟨held (f.getWorkUnit x) true, ?_, ?_⟩
    ⟨held (f.getWorkUnit x) false, ?_, ?_⟩⟩
  · simp [UnitOk, hunit, hloops, hpending]
  · refine RestOk.congr (f := f) ?_ hother (by simp [hloops]) (fun _ => ?_)
    · simpa [hstack] using hrest
    · simp [Light, hunit]
  · exact .of_sent x (by simp [hunit]) (by simp [hother]) (by simp [heffects, hsent])
  · -- The packets that came in here leave the line of this side.
    have hlose := LossyLine.lose (down f (!x)) (held (f.getWorkUnit x) true) []
    simpa [ddLine, down, noArrival, hunit, hother, heffects, hsent, held] using hlose
  · have hown : freedFrom x es = held (f.getWorkUnit x) true := by simpa using hfreed true
    rw [effects_emit, heffects, freedFrom_append, hown]
  · -- Those that came from the other side leave the line of that side.
    have hlose := LossyLine.lose (sentWith (f.getWorkUnit x).direction f.effects)
      (held (f.getWorkUnit x) false) (held (f.getWorkUnit (!x)) true)
    simpa [ddLine, down, noArrival, hunit, hother, heffects, hsent, held] using hlose
  · have hreceived : freedFrom (!x) es = held (f.getWorkUnit x) false := by
      simpa using hfreed false
    rw [effects_emit, heffects, freedFrom_append, hreceived]

section Positions

variable {f : AsyncFlowImpl σ π κ} {x : Bool}

/-- What follows a forwarded packet keeps both lines. -/
theorem stepOk_runAfterForward (action : AfAction)
    (hx : UnitOk (f.getWorkUnit x) (f.pendingLoops x) (some (.afterForward action)))
    (hrest : RestOk f x f.stack) : StepOk f (f.runAfterForward x action) noArrival := by
  obtain ⟨hpending, c, hcontext, hnull⟩ := hx
  have hheld (s : Bool) : contextHeld (f.getWorkUnit x).curContext s = [] := by
    rw [hcontext, contextHeld, hnull]
    exact ite_self _
  unfold runAfterForward
  dsimp only
  split
  · have hmoved : MovedOut x true none .closeDrain f ((f.setWorkUnit x
        { f.getWorkUnit x with curContext := none, loopFn := false }).push x .closeDrain) := by
      constructor
      case light => exact fun h => ⟨by simpa [push] using h.1, by simp [push]⟩
      all_goals simp [push, held, hheld, UnitOk, hpending]
    exact hmoved.stepOk hrest
  · have hmoved : MovedOut x true none .drain f
        ((f.setWorkUnit x { f.getWorkUnit x with curContext := none }).push x .drain) := by
      constructor
      case light => exact fun h => ⟨by simpa [push] using h.1, by simp [push]⟩
      all_goals simp [push, held, hheld, UnitOk, hpending]
    exact hmoved.stepOk hrest

/-- `pop_front` takes away the null packet that a move left behind. -/
theorem stepOk_popFront {b : BufferedPacket π} {q : List (BufferedPacket π)}
    (hcontext : (f.getWorkUnit x).curContext = none) (hbuffer : (f.getWorkUnit x).bufferQ = b :: q)
    (hnull : b.pkt = none) (hrest : RestOk f x f.stack) {pos : Position}
    (hpos : ∀ u : AfWorkUnit σ π κ, u.curContext = none → UnitOk u (f.pendingLoops x) (some pos)) :
    StepOk f ((f.popFront x).push x pos) noArrival := by
  have hmoved : MovedOut x true none pos f ((f.popFront x).push x pos) := by
    unfold popFront push
    constructor
    case light =>
      intro h
      rw [Light, hbuffer] at h
      cases h.1
    case unitOk => exact by simpa using hpos _ (by simpa using hcontext)
    all_goals simp [held, hbuffer, hnull]
  exact hmoved.stepOk hrest

/-- A round of the loop of the post handler. -/
theorem stepOk_runDrain (hopp : Opposed f)
    (hx : UnitOk (f.getWorkUnit x) (f.pendingLoops x) (some .drain)) (hrest : RestOk f x f.stack) :
    StepOk f (f.runDrain P x) noArrival := by
  obtain ⟨hpending, hcontext⟩ := hx
  unfold runDrain
  split
  -- The buffer is empty: the loop ends, with a close context when the preprocessor is closed.
  case h_1 hbuffer =>
    split
    · have hmoved : MovedOut x true none .invoke f
          (f.startLoop x ⟨none, .makeCloseEvent, true⟩) := by
        unfold startLoop push
        constructor
        case light => exact fun h => ⟨by simpa using h.1, by simp⟩
        all_goals simp [held, hcontext, UnitOk, hpending]
      exact hmoved.stepOk hrest
    · refine ⟨stackOk_return (x := x) ?_ hrest, ⟨fun _ => rfl, fun _ _ => rfl⟩,
        movesLines_of_eq (fun _ => rfl) fun _ => rfl⟩
      simp [UnitOk, hcontext, hbuffer, hpending]
  case h_2 b q hbuffer =>
    have hquiet := quiet_preprocessPacket P f x b.pkt b.isSend
    -- A buffer with a packet is not what a suspended frame may have.
    have hlight {u : AfWorkUnit σ π κ} : Light (f.getWorkUnit x) → Light u := by
      intro h
      rw [Light, hbuffer] at h
      cases h.1
    dsimp only
    generalize f.preprocessPacket P x b.pkt b.isSend = r at hquiet ⊢
    obtain ⟨g, fe⟩ := r
    dsimp only at hquiet ⊢
    have hcontext' : (g.getWorkUnit x).curContext = none := hquiet.curContext.trans hcontext
    split
    · -- Without an event the packet goes to the other side, and its item leaves the buffer after
      -- that.
      have hmoved : MovedOut x b.isSend b.pkt .drainPop f ((g.setWorkUnit x
          { g.getWorkUnit x with bufferQ := { b with pkt := none } :: q }).push x .drainPop) := by
        unfold push
        constructor
        case light => exact hlight
        all_goals simp [held, hcontext, hcontext', hbuffer, UnitOk, hpending, hquiet.other,
          hquiet.direction, hquiet.pendingLoops, hquiet.sent, hquiet.freed, hquiet.stack]
      exact hmoved.stepOk_internalPacketForward P trivial hopp hrest
    · -- With an event it moves into the context.
      have hmoved : MovedOut x true none .invoke f ((g.setWorkUnit x
          { g.getWorkUnit x with bufferQ := q }).startLoop x ⟨b.pkt, fe, b.isSend⟩) := by
        unfold startLoop push
        constructor
        case light => exact hlight
        all_goals simp [held, hcontext, hbuffer, contextHeld, UnitOk, hpending, hquiet.other,
          hquiet.direction, hquiet.pendingLoops, hquiet.sent, hquiet.freed, hquiet.stack]
      exact hmoved.stepOk hrest

/-- A round of the loop of `close_async_loop`. -/
theorem stepOk_runCloseDrain (hopp : Opposed f)
    (hx : UnitOk (f.getWorkUnit x) (f.pendingLoops x) (some .closeDrain))
    (hrest : RestOk f x f.stack) : StepOk f (f.runCloseDrain P x) noArrival := by
  obtain ⟨hpending, hcontext⟩ := hx
  unfold runCloseDrain
  split
  -- The buffer is empty: the future of the loop resolves.
  case h_1 hbuffer =>
    refine ⟨stackOk_return (x := x) ?_ ?_, ?_, movesLines_of_eq (forall_side x ?_ ?_) ?_⟩
    · simp [UnitOk, hcontext, hbuffer, hpending]
    · refine RestOk.congr (f := f) ?_ (by simp) (by simp) (fun h => by simpa [Light] using h)
      simpa using hrest
    · exact .of_sent x (by simp) (by simp) (by simp [sentWith])
    · simp [ddLine, down, held, sentWith]
    · simp [ddLine, down, held, sentWith]
    · intro z
      simp [freedFrom]
  case h_2 b q hbuffer =>
    -- The front item was moved from, and it stays in the buffer during the call.
    have hquiet := quiet_preprocessAndForward P (f.setWorkUnit x
      { f.getWorkUnit x with bufferQ := { b with pkt := none } :: q }) x b.pkt b.isSend
    dsimp only
    generalize (f.setWorkUnit x { f.getWorkUnit x with
      bufferQ := { b with pkt := none } :: q }).preprocessAndForward P x b.pkt b.isSend = g
      at hquiet ⊢
    have hbuffer' : (g.getWorkUnit x).bufferQ = { b with pkt := none } :: q := by
      simp [hquiet.bufferQ]
    have hcontext' : (g.getWorkUnit x).curContext = none := by
      simp [hquiet.curContext, hcontext]
    have hmoved : MovedOut x b.isSend b.pkt .closePop f (g.push x .closePop) := by
      unfold push
      constructor
      case light =>
        intro h
        rw [Light, hbuffer] at h
        cases h.1
      all_goals simp [held, hcontext, hcontext', hbuffer, hbuffer', UnitOk, hpending,
        hquiet.other, hquiet.direction, hquiet.pendingLoops, hquiet.sent, hquiet.freed,
        hquiet.stack]
    exact hmoved.stepOk_internalPacketForward P trivial hopp hrest

/-- The frame on top goes on. -/
theorem stepOk_runPosition (hopp : Opposed f) {pos : Position}
    (hx : UnitOk (f.getWorkUnit x) (f.pendingLoops x) (some pos)) (hrest : RestOk f x f.stack)
    (hinvoke : pos ≠ .invoke) : StepOk f (f.runPosition P x pos) noArrival := by
  cases pos with
  | invoke => exact absurd rfl hinvoke
  | afterForward action => exact stepOk_runAfterForward action hx hrest
  | drain => exact stepOk_runDrain P hopp hx hrest
  | closeDrain => exact stepOk_runCloseDrain P hopp hx hrest
  | drainPop =>
    obtain ⟨hpending, hcontext, b, q, hbuffer, hnull⟩ := hx
    exact stepOk_popFront hcontext hbuffer hnull hrest (fun _ h => ⟨hpending, h⟩)
  | closePop =>
    obtain ⟨hpending, hcontext, b, q, hbuffer, hnull⟩ := hx
    exact stepOk_popFront hcontext hbuffer hnull hrest (fun _ h => ⟨hpending, h⟩)

end Positions

/-- The completion of a loop function whose context is engaged. -/
theorem stepOk_loopDone {f : AsyncFlowImpl σ π κ} (hopp : Opposed f) {x : Bool}
    (hcontext : (f.getWorkUnit x).curContext.isSome) (hpending : f.pendingLoops x = 0)
    (hrest : RestOk f x f.stack) (result : LoopResult) :
    StepOk f (f.loopDone P x result) noArrival := by
  obtain ⟨c, hc⟩ := Option.isSome_iff_exists.mp hcontext
  cases result with
  | action a => exact stepOk_loopFnPostHandler P hopp hc hpending hrest a
  | failed => exact stepOk_asyncLoopExceptionHandler hpending hrest

/-! ### The runs -/

/-- The packets that a label brings, by side. -/
def ddArrival (f : AsyncFlowImpl σ π κ) : Label π → Bool → List π
  | .packet pkt direction => arrivesAt (direction == f.client.direction) [pkt]
  | _ => noArrival

/-- The invariant of a work unit looks at its context, its buffer and its loop function. -/
theorem UnitOk.congr {u u' : AfWorkUnit σ π κ} {n : Nat} {pos : Option Position}
    (h : UnitOk u n pos) (hcontext : u'.curContext = u.curContext)
    (hbuffer : u'.bufferQ = u.bufferQ) (hloop : u.loopFn = true → u'.loopFn = true) :
    UnitOk u' n pos := by
  cases pos with
  | none =>
    rw [UnitOk, hcontext, hbuffer]
    exact ⟨h.1, fun hsome => hloop (h.2.1 hsome), h.2.2⟩
  | some pos =>
    cases pos <;> · simp only [UnitOk, hcontext, hbuffer] at h ⊢
                    exact h

/-- The invariant looks at the contexts, the buffers, the loop functions and the stack. -/
theorem StackOk.congr {f f' : AsyncFlowImpl σ π κ} (hf : StackOk f) (hstack : f'.stack = f.stack)
    (hpending : f'.pendingLoops = f.pendingLoops)
    (hcontext : ∀ z, (f'.getWorkUnit z).curContext = (f.getWorkUnit z).curContext)
    (hbuffer : ∀ z, (f'.getWorkUnit z).bufferQ = (f.getWorkUnit z).bufferQ)
    (hloop : ∀ z, (f.getWorkUnit z).loopFn = true → (f'.getWorkUnit z).loopFn = true) :
    StackOk f' := by
  have hunit (z : Bool) (pos : Option Position)
      (h : UnitOk (f.getWorkUnit z) (f.pendingLoops z) pos) :
      UnitOk (f'.getWorkUnit z) (f'.pendingLoops z) pos := by
    rw [hpending]
    exact h.congr (hcontext z) (hbuffer z) (hloop z)
  unfold StackOk at hf ⊢
  rw [hstack]
  cases hs : f.stack with
  | nil =>
    rw [hs] at hf
    exact fun z => hunit z none (hf z)
  | cons F rest =>
    rw [hs] at hf
    refine ⟨hunit _ _ hf.1, ?_⟩
    -- The stack has at most two frames: the second one is suspended on the other side.
    cases rest with
    | nil => exact hunit _ none hf.2
    | cons F' rest =>
      cases rest with
      | cons _ _ => exact hf.2.elim
      | nil =>
        obtain ⟨hside, hsusp, hrest, hlight⟩ := hf.2
        refine ⟨hside, hsusp, hunit _ _ hrest, ?_⟩
        rw [Light, hbuffer, hcontext]
        exact hlight

/-- A change of a work unit that concerns neither its packets nor its loop state. -/
theorem stepOk_setWorkUnit {f : AsyncFlowImpl σ π κ} (hf : StackOk f) (x : Bool)
    {u : AfWorkUnit σ π κ} (hcontext : u.curContext = (f.getWorkUnit x).curContext)
    (hbuffer : u.bufferQ = (f.getWorkUnit x).bufferQ)
    (hdirection : u.direction = (f.getWorkUnit x).direction)
    (hloop : (f.getWorkUnit x).loopFn = true → u.loopFn = true) :
    StepOk f (f.setWorkUnit x u) noArrival := by
  refine ⟨hf.congr (by simp) (by simp) (forall_side x ?_ ?_) (forall_side x ?_ ?_)
    (forall_side x ?_ ?_), .of_sent x ?_ ?_ ?_,
    movesLines_of_eq (forall_side x ?_ ?_) ?_⟩
  all_goals simp [ddLine, down, held, hcontext, hbuffer, hdirection]
  exact hloop

/-- Every step keeps the invariant and moves the lines. -/
theorem stepOk_step {f f' : AsyncFlowImpl σ π κ} {l : Label π} (hf : StackOk f) (hopp : Opposed f)
    (h : f.step P l = some f') : StepOk f f' (ddArrival f l) := by
  cases l with
  | packet pkt direction =>
    rw [step] at h
    split at h
    case isFalse => cases h
    case isTrue hstack =>
      cases h
      exact stepOk_handlePacketSend P hf hopp hstack (some pkt) direction
  | passiveClose x =>
    rw [step] at h
    split at h
    case isFalse => cases h
    case isTrue hstack =>
      cases h
      exact stepOk_pprPassiveClose hf hstack x
  | register x s ev =>
    cases h
    cases s <;> exact stepOk_setWorkUnit hf x rfl rfl rfl id
  | unregister x s ev =>
    cases h
    cases s <;> exact stepOk_setWorkUnit hf x rfl rfl rfl id
  | runLoop x =>
    cases h
    exact stepOk_setWorkUnit hf x rfl rfl rfl (fun _ => rfl)
  | destroyInitialContext =>
    cases h
    exact ⟨hf, ⟨fun _ => rfl, fun _ _ => rfl⟩, movesLines_of_eq (fun _ => rfl) fun _ => rfl⟩
  -- A loop that the reactor resumes: nothing else runs, so the counts of all units are exact.
  | loopDone x result =>
    rw [step] at h
    split at h
    case isFalse => cases h
    case isTrue hready =>
      obtain ⟨hstack, hpos⟩ := hready
      cases h
      have hunits : ∀ z, UnitOk (f.getWorkUnit z) (f.pendingLoops z) none := by
        simpa [StackOk, hstack] using hf
      have hsome : (f.getWorkUnit x).curContext.isSome := by
        have hcount := (hunits x).1
        split at hcount
        · assumption
        · omega
      -- A unit with a context has one pending loop, and this one is it.
      have hone : f.pendingLoops x = 1 := by simpa [hsome] using (hunits x).1
      have hstep := stepOk_loopDone P (x := x) (f := f.setPendingLoops x (f.pendingLoops x - 1))
        hopp hsome (by simp [hone]) (by simpa [hstack, RestOk] using hunits (!x)) result
      exact hstep.of_start (fun _ => rfl) rfl
  | callLoop result =>
    rw [step] at h
    split at h
    case h_2 => cases h
    case h_1 x rest hstack =>
      rw [StackOk, hstack] at hf
      obtain ⟨⟨hpending, hsome⟩, hrest⟩ := hf
      dsimp only at h
      -- The top frame calls the loop function, and without one the exception handler runs.
      by_cases hloop : ((f.setStack rest).getWorkUnit x).loopFn = true
      case neg =>
        rw [if_neg hloop] at h
        cases h
        have hstep := stepOk_asyncLoopExceptionHandler (x := x) (f := f.setStack rest)
          hpending hrest
        exact hstep.of_start (fun _ => rfl) rfl
      case pos =>
        rw [if_pos hloop] at h
        cases result with
        | none =>
          cases h
          refine ⟨stackOk_return (x := x) ?_ ?_, ⟨fun _ => rfl, fun _ _ => rfl⟩,
            movesLines_of_eq (fun _ => rfl) fun _ => rfl⟩
          · refine ⟨?_, fun _ => hloop, fun hnone => ?_⟩
            · rw [pendingLoops_setPendingLoops, getWorkUnit_setPendingLoops, pendingLoops_setStack,
                getWorkUnit_setStack, hpending, if_pos hsome]
            · rw [getWorkUnit_setPendingLoops, getWorkUnit_setStack] at hnone
              simp [hnone] at hsome
          · exact RestOk.congr (f := f) hrest rfl (by simp) id
        | some result =>
          cases h
          have hstep := stepOk_loopDone P (x := x) (f := f.setStack rest) hopp hsome hpending
            hrest result
          exact hstep.of_start (fun _ => rfl) rfl
  | goOn =>
    rw [step] at h
    split at h
    case h_1 => cases h
    case h_2 x pos rest hstack =>
      split at h
      case isTrue => cases h
      case isFalse hinvoke =>
        cases h
        rw [StackOk, hstack] at hf
        have hstep := stepOk_runPosition (f := f.setStack rest) P hopp hf.1 hf.2 hinvoke
        exact hstep.of_start (fun _ => rfl) rfl

/-- A flow together with the packets that a run has brought so far, and their directions. -/
structure DdTrace (σ π κ : Type) where
  flow : AsyncFlowImpl σ π κ
  arrived : List (π × Nat)

/-- The trace of a new flow. -/
def DdTrace.create (clientDirection : Nat) (key : κ) : DdTrace σ π κ :=
  ⟨.create P clientDirection key, []⟩

/-- A step of the flow, recorded. -/
def DdTrace.step (t : DdTrace σ π κ) (l : Label π) : Option (DdTrace σ π κ) :=
  (t.flow.step P l).map fun f =>
    { flow := f
      arrived := t.arrived ++
        match l with
        | .packet pkt direction => [(pkt, direction)]
        | _ => [] }

/-- The packets that arrived with the client's direction (`true`), or with another one. -/
def arrivedAt (clientDirection : Nat) (x : Bool) (arrived : List (π × Nat)) : List π :=
  (arrived.filter fun a => (a.2 == clientDirection) == x).map Prod.fst

/-- The direction with which the packets of side `x` go out. -/
def outDirection (clientDirection : Nat) (x : Bool) : Nat :=
  if x then getReverseDirection clientDirection else clientDirection

/-- Packets arrive one after another. -/
theorem arrivedAt_append (cd : Nat) (x : Bool) (a b : List (π × Nat)) :
    arrivedAt cd x (a ++ b) = arrivedAt cd x a ++ arrivedAt cd x b := by
  simp [arrivedAt]

/-- A packet arrives at the side of its direction. -/
theorem arrivedAt_packet (cd : Nat) (x : Bool) (pkt : π) (direction : Nat) :
    arrivedAt cd x [(pkt, direction)] = arrivesAt (direction == cd) [pkt] x := by
  unfold arrivedAt arrivesAt
  by_cases h : (direction == cd) = x
  · simp [h]
  · simp [h, Ne.symm h]

/-- The invariant of a trace. -/
structure DdTrace.Ordered (cd : Nat) (t : DdTrace σ π κ) : Prop where
  stackOk : StackOk t.flow
  direction : ∀ x, (t.flow.getWorkUnit (!x)).direction = outDirection cd x
  line : ∀ x, LossyLine (arrivedAt cd x t.arrived) (ddLine t.flow x)
    (freedFrom x t.flow.effects)
  elsewhere : ∀ d, (∀ x, d ≠ outDirection cd x) → sentWith d t.flow.effects = []

/-- The two sides send with different directions. -/
theorem outDirection_ne (cd : Nat) (x : Bool) : outDirection cd x ≠ outDirection cd (!x) := by
  cases x <;> simp [outDirection, getReverseDirection] <;> split <;> omega

/-- A new flow has got no packets. -/
theorem DdTrace.ordered_create (cd : Nat) (key : κ) :
    (DdTrace.create P cd key).Ordered cd where
  stackOk := by
    intro x
    cases x <;> exact ⟨rfl, nofun, fun _ => rfl⟩
  direction := by
    intro x
    cases x <;> rfl
  line := by
    intro x
    cases x <;> exact .refl []
  elsewhere := fun _ _ => rfl

/-- A step keeps the order of both sides. -/
theorem DdTrace.ordered_step {cd : Nat} {t t' : DdTrace σ π κ} {l : Label π}
    (ht : t.Ordered cd) (h : t.step P l = some t') : t'.Ordered cd := by
  obtain ⟨f, hf, rfl⟩ := Option.map_eq_some_iff.mp h
  -- The two sides send with different directions.
  have hopp : Opposed t.flow := by
    intro x
    have hne := outDirection_ne cd x
    have hx := ht.direction (!x)
    rw [Bool.not_not] at hx
    rw [hx, ht.direction]
    exact hne.symm
  have hclient : t.flow.client.direction = cd := ht.direction false
  have hstep := stepOk_step P ht.stackOk hopp hf
  refine ⟨hstep.stackOk, ?_, ?_, ?_⟩
  · intro x
    rw [hstep.outputs.direction, ht.direction]
  · intro x
    obtain ⟨lost, hline, hfreed⟩ := hstep.lines x
    have harrived : arrivedAt cd x
        (match l with
          | .packet pkt direction => [(pkt, direction)]
          | _ => []) = ddArrival t.flow l x := by
      cases l with
      | packet pkt direction =>
        rw [arrivedAt_packet, ddArrival, hclient]
      | _ => rfl
    dsimp only
    rw [hfreed, arrivedAt_append, harrived]
    exact (ht.line x).trans hline
  · intro d hd
    rw [hstep.outputs.elsewhere d, ht.elsewhere d hd]
    intro z
    have hz := ht.direction (!z)
    rw [Bool.not_not] at hz
    rw [hz]
    exact hd _

/-- Packets that arrive with the client's direction go out with the reverse direction, and the
others with the client's direction. The packets that went out are in the order of arrival. A packet
is either sent out once, or held by one of the two work units, or freed. Each step of the run frees
only packets for which the state before it and its label have a cause, as `Excused` says. -/
theorem asyncFlow_order (cd : Nat) (key : κ) (ls : List (Label π)) {t : DdTrace σ π κ}
    (h : run (DdTrace.step P) (.create P cd key) ls = some t) :
    (∀ x, (sentWith (outDirection cd x) t.flow.effects).Sublist (arrivedAt cd x t.arrived) ∧
      (arrivedAt cd x t.arrived).Perm
        (sentWith (outDirection cd x) t.flow.effects ++
          (held (t.flow.getWorkUnit (!x)) false ++ held (t.flow.getWorkUnit x) true) ++
          freedFrom x t.flow.effects)) ∧
    (∀ d, (∀ x, d ≠ outDirection cd x) → sentWith d t.flow.effects = []) ∧
    ∀ ls₁ l ls₂ t₁ t₂, ls = ls₁ ++ l :: ls₂ →
      run (DdTrace.step P) (.create P cd key) ls₁ = some t₁ → t₁.step P l = some t₂ →
      Frees (Excused t₁.flow l) t₁.flow t₂.flow := by
  have ht : t.Ordered cd :=
    run_invariant (DdTrace.Ordered cd) (fun _ _ _ _ ht hstep => DdTrace.ordered_step P ht hstep)
      (DdTrace.ordered_create P cd key) h
  refine ⟨fun x => ?_, ht.elsewhere, fun ls₁ l ls₂ t₁ t₂ _ _ hstep => ?_⟩
  case refine_2 =>
    obtain ⟨f, hf, rfl⟩ := Option.map_eq_some_iff.mp hstep
    exact frees_step P hf
  have hline : ddLine t.flow x = sentWith (outDirection cd x) t.flow.effects ++
      (held (t.flow.getWorkUnit (!x)) false ++ held (t.flow.getWorkUnit x) true) := by
    rw [ddLine, down, ht.direction, List.append_assoc]
  have hlossy := ht.line x
  rw [hline] at hlossy
  exact ⟨(List.sublist_append_left _ _).trans hlossy.sublist, hlossy.perm⟩

/-- Packets of both sides meet in the buffer of the client. The completion forwards 10, whose loop
on the server side is ready at once, while the client waits for it with a nonempty buffer. -/
theorem asyncFlow_order_nested :
    ∃ t, run (DdTrace.step numberPpr) (.create numberPpr 0 7)
        [.destroyInitialContext, .register true true 0, .register false false 0, .runLoop true,
          .runLoop false, .packet 10 0, .callLoop none, .packet 11 0, .packet 5 1, .packet 3 0,
          .loopDone true (.action .forward), .callLoop (some (.action .forward)), .goOn, .goOn,
          .goOn, .goOn, .callLoop (some (.action .drop)), .goOn, .goOn, .goOn, .goOn] = some t ∧
      sentWith 1 t.flow.effects = [10, 3] ∧ freedFrom true t.flow.effects = [11] ∧
      sentWith 0 t.flow.effects = [5] ∧
      (sentWith (outDirection 0 true) t.flow.effects).Sublist (arrivedAt 0 true t.arrived) := by
  refine ⟨_, rfl, ?_, ?_, ?_, ?_⟩
  · decide
  · decide
  · decide
  · exact ((asyncFlow_order numberPpr 0 7
      [.destroyInitialContext, .register true true 0, .register false false 0, .runLoop true,
        .runLoop false, .packet 10 0, .callLoop none, .packet 11 0, .packet 5 1, .packet 3 0,
        .loopDone true (.action .forward), .callLoop (some (.action .forward)), .goOn, .goOn,
        .goOn, .goOn, .callLoop (some (.action .drop)), .goOn, .goOn, .goOn, .goOn] rfl).1
      true).1

end Netstar.Proofs.AsyncFlow
