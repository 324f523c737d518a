import Netstar.Proofs.AsyncFlow.WorkUnits

/-!
# `Netstar.Proofs.AsyncFlow.Drops`: why a packet is freed

A `free` effect carries a cause. `Excused` says what the cause means in terms of the label of a step
and the state before it, and names the packet and the side at which it arrived. A step frees only
packets for which this holds (`frees_step`): there is no other way to lose a packet.

`Frees Q f f'` bounds the packets that are freed between `f` and `f'`. Each function of a work unit has
one lemma, with the sharpest `Q`.
-/

set_option autoImplicit false

namespace Netstar.Proofs.AsyncFlow

open Netstar.Lib
open Netstar.Spec.AsyncFlow
open Netstar.Spec.AsyncFlow.AsyncFlowImpl

variable {σ π κ : Type}

/-! ### The causes -/

/-- A loop function of `x` is called or resumed in the step, and it ends with the result. -/
def Completes (f : AsyncFlowImpl σ π κ) (l : Label π) (x : Bool) (result : LoopResult) : Prop :=
  l = .loopDone x result ∨
    l = .callLoop (some result) ∧ ∃ rest, f.stack = ⟨x, .invoke⟩ :: rest

/-- The step ends in the exception handler of `x`: the loop function fails, or there is none to call. -/
def Fails (f : AsyncFlowImpl σ π κ) (l : Label π) (x : Bool) : Prop :=
  Completes f l x .failed ∨
    (f.getWorkUnit x).loopFn = false ∧
      ∃ result rest, l = .callLoop result ∧ f.stack = ⟨x, .invoke⟩ :: rest

/-- The packet arrives at `x` in the step. -/
def ArrivesAt (f : AsyncFlowImpl σ π κ) (l : Label π) (x : Bool) (pkt : π) : Prop :=
  ∃ direction, l = .packet pkt direction ∧ (direction == f.client.direction) = x

/-- The work unit of `x` has the packet in hand, and passes it on to the other work unit: it arrives, or
it is the packet of the context or of the front of the buffer. -/
def InHand (f : AsyncFlowImpl σ π κ) (l : Label π) (x : Bool) (pkt : π) : Prop :=
  ArrivesAt f l x pkt ∨
    (∃ c, (f.getWorkUnit x).curContext = some c ∧ c.isSend = true ∧ c.pkt = some pkt) ∨
    ∃ b, (f.getWorkUnit x).bufferQ.head? = some b ∧ b.isSend = true ∧ b.pkt = some pkt

/-- What each cause means for a packet that arrived at `side`. -/
def Excused (f : AsyncFlowImpl σ π κ) (l : Label π) (pkt : π) (side : Bool) : FreeCause → Prop
  -- The loop function says `drop` or `close_drop` about the packet of its context.
  | .dropAction => ∃ x c, (Completes f l x (.action .drop) ∨ Completes f l x (.action .closeDrop)) ∧
      (f.getWorkUnit x).curContext = some c ∧ c.pkt = some pkt ∧ (x == c.isSend) = side
  -- The work unit that held the packet gives up.
  | .exception => ∃ x isSend, Fails f l x ∧ pkt ∈ held (f.getWorkUnit x) isSend ∧
      (x == isSend) = side
  -- The work unit that the packet reaches is closed.
  | .closedUnit => ArrivesAt f l side pkt ∧ (f.getWorkUnit side).pprClose = true ∨
      InHand f l side pkt ∧ (f.getWorkUnit (!side)).pprClose = true
  | .initialContext => ArrivesAt f l side pkt ∧ f.initialContextDestroyed = false

/-! ### What a piece of code frees -/

/-- The effects of `f'` are those of `f` and new ones, and `Q` holds for each packet that these free. -/
def Frees (Q : π → Bool → FreeCause → Prop) (f f' : AsyncFlowImpl σ π κ) : Prop :=
  ∃ es, f'.effects = f.effects ++ es ∧ ∀ pkt side cause, .free pkt side cause ∈ es → Q pkt side cause

section
variable {Q R : π → Bool → FreeCause → Prop} {f g h : AsyncFlowImpl σ π κ} {x : Bool}

/-- A part of a call without effects frees nothing. -/
theorem Frees.of_effects (heq : g.effects = f.effects) : Frees Q f g :=
  ⟨[], by rw [heq, List.append_nil], fun _ _ _ hmem => by cases hmem⟩

/-- Two parts of a call free what each of them frees. -/
theorem Frees.trans (hfg : Frees Q f g) (hgh : Frees Q g h) : Frees Q f h := by
  obtain ⟨es, hes, hfree⟩ := hfg
  obtain ⟨es', hes', hfree'⟩ := hgh
  refine ⟨es ++ es', by rw [hes', hes, List.append_assoc], fun pkt side cause hmem => ?_⟩
  rcases List.mem_append.mp hmem with hmem | hmem
  · exact hfree pkt side cause hmem
  · exact hfree' pkt side cause hmem

/-- A weaker excuse. -/
theorem Frees.mono (hfg : Frees Q f g) (himp : ∀ pkt side cause, Q pkt side cause → R pkt side cause) :
    Frees R f g := by
  obtain ⟨es, hes, hfree⟩ := hfg
  exact ⟨es, hes, fun pkt side cause hmem => himp pkt side cause (hfree pkt side cause hmem)⟩

/-- A freed packet needs the excuse. The null packet needs none. -/
theorem frees_freePacket {pkt : RtePacket π} {s : Bool} {cause : FreeCause}
    (hQ : ∀ p, pkt = some p → Q p (x == s) cause) : Frees Q f (f.freePacket pkt x s cause) := by
  refine ⟨_, rfl, fun p side c hmem => ?_⟩
  cases pkt with
  | none => cases hmem
  | some q =>
    cases List.mem_singleton.mp hmem
    exact hQ p rfl

/-- No packet is freed. -/
def FreesNone (f f' : AsyncFlowImpl σ π κ) : Prop := Frees (fun _ _ _ => False) f f'

/-- What frees nothing needs no excuse. -/
theorem FreesNone.frees (hfg : FreesNone f g) : Frees Q f g := hfg.mono fun _ _ _ => False.elim

/-- A part of a call without effects frees nothing. -/
theorem FreesNone.of_effects (heq : g.effects = f.effects) : FreesNone f g := Frees.of_effects heq

/-- Two parts of a call that free nothing. -/
theorem FreesNone.trans (hfg : FreesNone f g) (hgh : FreesNone g h) : FreesNone f h :=
  Frees.trans hfg hgh

/-- Effects without a free. -/
theorem freesNone_emit {es : List (Effect π κ)}
    (hes : ∀ pkt side cause, Effect.free pkt side cause ∉ es) : FreesNone f (f.emit es) :=
  ⟨es, rfl, hes⟩

/-- A close frees no packet. -/
theorem freesNone_closePprAndRemoveFlowKey : FreesNone f (f.closePprAndRemoveFlowKey x) := by
  refine FreesNone.trans (.of_effects (effects_setWorkUnit f x _)) (freesNone_emit ?_)
  simp

variable (P : Ppr σ π κ)

/-- The reverse key frees no packet. -/
theorem freesNone_addReverseMapping (pkt : RtePacket π) : FreesNone f (f.addReverseMapping P pkt x) := by
  unfold addReverseMapping
  dsimp only
  split
  · exact freesNone_emit (by simp)
  · exact .of_effects rfl

/-- The preprocessor has no effects. -/
theorem effects_callPpr (pkt : RtePacket π) (s : Bool) :
    (f.callPpr P x pkt s).1.effects = f.effects := effects_setWorkUnit f x _

/-- Preprocessing frees no packet. -/
theorem freesNone_preprocessPacket (pkt : RtePacket π) (s : Bool) :
    FreesNone f (f.preprocessPacket P x pkt s).1 := by
  have hcall : FreesNone f (f.callPpr P x pkt s).1 := .of_effects (effects_callPpr P pkt s)
  unfold preprocessPacket
  dsimp only
  generalize (if s = true then _ else _ : FilteredEvents) = fe
  split
  · exact hcall.trans freesNone_closePprAndRemoveFlowKey
  · exact hcall

/-- `preprocess_and_forward` frees no packet. -/
theorem freesNone_preprocessAndForward (pkt : RtePacket π) (s : Bool) :
    FreesNone f (f.preprocessAndForward P x pkt s) := by
  have hcall : FreesNone f (f.callPpr P x pkt s).1 := .of_effects (effects_callPpr P pkt s)
  unfold preprocessAndForward
  dsimp only
  split
  · exact hcall.trans freesNone_closePprAndRemoveFlowKey
  · exact hcall

/-- A packet that is sent out is not freed. -/
theorem freesNone_sendPacketOut (pkt : RtePacket π) : FreesNone f (f.sendPacketOut pkt x) :=
  freesNone_emit (by simp)

/-- The call of a loop function frees no packet. -/
theorem freesNone_startLoop (context : PacketContext π) : FreesNone f (f.startLoop x context) :=
  .of_effects (effects_setWorkUnit f x _)

/-- What a work unit passes on is the packet that it was given, and the other work unit is as it was. -/
theorem actionAfterPacketHandle_frees (pkt : RtePacket π) (s : Bool) :
    FreesNone f (f.actionAfterPacketHandle P x pkt s).1 ∧
      (∀ out, (f.actionAfterPacketHandle P x pkt s).2 = some out → out = pkt) ∧
      (f.actionAfterPacketHandle P x pkt s).1.getWorkUnit (!x) = f.getWorkUnit (!x) := by
  have hpre := freesNone_preprocessPacket P (f := f) (x := x) pkt s
  have hother := (quiet_preprocessPacket P f x pkt s).other
  unfold actionAfterPacketHandle
  dsimp only
  split
  · split
    · split
      · exact ⟨hpre, fun out hout => (Option.some_inj.mp hout).symm, hother⟩
      · refine ⟨hpre.trans (freesNone_startLoop _), (fun out hout => by cases hout), ?_⟩
        rw [startLoop, push, getWorkUnit_setStack, getWorkUnit_setWorkUnit_not, hother]
    · exact ⟨.of_effects (effects_setWorkUnit f x _), (fun out hout => by cases hout),
        getWorkUnit_setWorkUnit_not f x _⟩
  · exact ⟨freesNone_preprocessAndForward P pkt s, fun out hout => (Option.some_inj.mp hout).symm,
      (quiet_preprocessAndForward P f x pkt s).other⟩

/-- The packet `pkt`, which arrived at `x`, finds the work unit of `y` closed. -/
def Rejects (f : AsyncFlowImpl σ π κ) (y : Bool) (pkt : RtePacket π) (x : Bool) :
    π → Bool → FreeCause → Prop :=
  fun p side cause =>
    pkt = some p ∧ x = side ∧ cause = .closedUnit ∧ (f.getWorkUnit y).pprClose = true

/-- A packet that the other work unit hands over is freed only by a closed work unit. -/
theorem frees_handlePacketRecv (pkt : RtePacket π) (y : Bool) :
    Frees (Rejects f y pkt (!y)) f (f.handlePacketRecv P pkt y) := by
  unfold handlePacketRecv
  by_cases hclosed : ((f.getWorkUnit y).pprClose || pkt.isNone) = true
  · rw [if_pos hclosed]
    refine frees_freePacket fun p hp => ⟨hp, by cases y <;> rfl, rfl, ?_⟩
    simpa [hp] using hclosed
  · rw [if_neg hclosed]
    obtain ⟨hnone, -, -⟩ := actionAfterPacketHandle_frees P (f := f.addReverseMapping P pkt y) (x := y)
      pkt false
    have hfrees := (freesNone_addReverseMapping P (f := f) (x := y) pkt).trans hnone
    generalize (f.addReverseMapping P pkt y).actionAfterPacketHandle P y pkt false = r at hfrees
    obtain ⟨g, out⟩ := r
    cases out with
    | none => exact hfrees.frees
    | some out => exact (hfrees.trans (freesNone_sendPacketOut out)).frees

/-- A packet that is passed on is freed only if it is one to send, and the other work unit is closed. -/
theorem frees_internalPacketForward (pkt : RtePacket π) (s : Bool) :
    Frees (fun p side cause => s = true ∧ Rejects f (!x) pkt x p side cause) f
      (f.internalPacketForward P pkt x s) := by
  unfold internalPacketForward
  cases s with
  | false => exact (freesNone_sendPacketOut pkt).frees
  | true =>
    refine (frees_handlePacketRecv P pkt (!x)).mono fun p side cause h => ⟨rfl, ?_⟩
    rwa [Bool.not_not] at h

end

/-! ### The functions of a step -/

section
variable {f₀ f g : AsyncFlowImpl σ π κ} {l : Label π} {x : Bool} (P : Ppr σ π κ)

/-- The packet in hand goes to the other work unit, which is as it was at the start `f₀` of the step. -/
theorem frees_passOn {pkt : RtePacket π} {s : Bool} (hfg : FreesNone f g)
    (hother : g.getWorkUnit (!x) = f₀.getWorkUnit (!x))
    (hhand : ∀ p, s = true → pkt = some p → InHand f₀ l x p) :
    Frees (Excused f₀ l) f (g.internalPacketForward P pkt x s) := by
  refine hfg.frees.trans ((frees_internalPacketForward P pkt s).mono ?_)
  rintro p side cause ⟨hs, hpkt, rfl, rfl, hclosed⟩
  exact .inr ⟨hhand p hs hpkt, hother ▸ hclosed⟩

/-- A packet that arrives is freed by a closed work unit or by the check of the initial context. -/
theorem frees_handlePacketSend {pkt : π} {direction : Nat} :
    Frees (Excused f (.packet pkt direction)) f (f.handlePacketSend P (some pkt) direction) := by
  have harrives (p : π) (hp : some pkt = some p) :
      ArrivesAt f (.packet pkt direction) ((direction == f.client.direction) == true) p := by
    cases hp
    exact ⟨direction, rfl, by rw [beq_true]⟩
  unfold handlePacketSend
  dsimp only
  split
  -- The side that the packet arrives at is closed.
  case isTrue hclosed =>
    refine frees_freePacket fun p hp => .inl ⟨harrives p hp, ?_⟩
    rwa [beq_true]
  case isFalse =>
    split
    case isTrue hinitial =>
      exact frees_freePacket fun p hp => ⟨harrives p hp, by simpa using hinitial⟩
    case isFalse =>
      -- What passes through the first side may still be freed by the other side.
      obtain ⟨hnone, hout, hother⟩ := actionAfterPacketHandle_frees P (f := f)
        (x := direction == f.client.direction) (some pkt) true
      generalize f.actionAfterPacketHandle P (direction == f.client.direction) (some pkt) true = r
        at hnone hout hother
      obtain ⟨g, out⟩ := r
      cases out with
      | none => exact hnone.frees
      | some out =>
        refine frees_passOn P hnone hother fun p _ hp => .inl ?_
        rw [hout out rfl] at hp
        have h := harrives p hp
        rwa [beq_true] at h

/-- The timer frees no packet. -/
theorem freesNone_pprPassiveClose : FreesNone f (f.pprPassiveClose x) := by
  have hclose := freesNone_closePprAndRemoveFlowKey (f := f) (x := x)
  unfold pprPassiveClose
  dsimp only
  split
  · exact hclose.trans (freesNone_startLoop _)
  · exact hclose

/-- The loop over a buffer frees the packets of the buffer. -/
theorem frees_foldl (q : List (BufferedPacket π)) (f : AsyncFlowImpl σ π κ) (cause : FreeCause) :
    Frees (fun p side c => c = cause ∧ ∃ s, p ∈ bufferHeld q s ∧ (x == s) = side) f
      (q.foldl (fun f b => f.freePacket b.pkt x b.isSend cause) f) := by
  induction q generalizing f with
  | nil => exact .of_effects rfl
  | cons b q ih =>
    rw [List.foldl_cons]
    refine Frees.trans (frees_freePacket fun p hp => ⟨rfl, b.isSend, ?_, rfl⟩) ((ih _).mono ?_)
    · simp [hp]
    · rintro p side c ⟨hc, s, hmem, hside⟩
      exact ⟨hc, s, by simp [hmem], hside⟩

/-- The exception handler frees the packets that its work unit holds. -/
theorem frees_asyncLoopExceptionHandler (f : AsyncFlowImpl σ π κ) (x : Bool) :
    Frees (fun p side c => c = .exception ∧ ∃ s, p ∈ held (f.getWorkUnit x) s ∧ (x == s) = side) f
      (f.asyncLoopExceptionHandler x) := by
  unfold asyncLoopExceptionHandler
  dsimp only
  refine Frees.trans (Frees.trans ?_ ((frees_foldl _ _ _).mono ?_)) (freesNone_emit (by simp)).frees
  · have hstart : ({ f with initialContextDestroyed := false }.setWorkUnit x
        { f.getWorkUnit x with curContext := none, loopFn := false, bufferQ := [] }).effects
          = f.effects := effects_setWorkUnit _ x _
    cases hcontext : (f.getWorkUnit x).curContext with
    | none => exact .of_effects hstart
    | some c =>
      refine Frees.trans (.of_effects hstart) (frees_freePacket fun p hp => ⟨rfl, c.isSend, ?_, rfl⟩)
      simp [held, contextHeld, hcontext, hp]
  · rintro p side c ⟨hc, s, hmem, hside⟩
    exact ⟨hc, s, List.mem_append_right _ hmem, hside⟩

/-- A completed iteration frees the packet of its context only when its action drops it. -/
theorem frees_loopFnPostHandler (hunit : ∀ y, f.getWorkUnit y = f₀.getWorkUnit y) {action : AfAction}
    (hl : Completes f₀ l x (.action action)) :
    Frees (Excused f₀ l) f (f.loopFnPostHandler P x action) := by
  unfold loopFnPostHandler
  dsimp only
  split
  case h_1 => exact .of_effects rfl
  case h_2 c hcontext =>
    have hcontext₀ : (f₀.getWorkUnit x).curContext = some c := hunit x ▸ hcontext
    have hmoved : ((f.setWorkUnit x
        { f.getWorkUnit x with curContext := some { c with pkt := none } }).push x
          (.afterForward action)).effects = f.effects := effects_setWorkUnit f x _
    split
    · exact frees_passOn P (.of_effects hmoved)
        ((getWorkUnit_setWorkUnit_not f x _).trans (hunit (!x)))
        fun p hs hp => .inr (.inl ⟨c, hcontext₀, hs, hp⟩)
    · rename_i hdrops
      refine Frees.trans (.of_effects hmoved) (frees_freePacket fun p hp => ?_)
      refine ⟨x, c, ?_, hcontext₀, hp, rfl⟩
      cases action with
      | drop => exact .inl hl
      | closeDrop => exact .inr hl
      | forward | closeForward => exact absurd rfl hdrops

/-- The exception handler frees the packets of its own work unit. -/
theorem frees_exception (hunit : ∀ y, f.getWorkUnit y = f₀.getWorkUnit y) (hl : Fails f₀ l x) :
    Frees (Excused f₀ l) f (f.asyncLoopExceptionHandler x) := by
  refine (frees_asyncLoopExceptionHandler f x).mono ?_
  rintro p side cause ⟨rfl, s, hmem, hside⟩
  exact ⟨x, s, hl, hunit x ▸ hmem, hside⟩

/-- A completion frees what its result excuses. -/
theorem frees_loopDone (hunit : ∀ y, f.getWorkUnit y = f₀.getWorkUnit y) {result : LoopResult}
    (hl : Completes f₀ l x result) : Frees (Excused f₀ l) f (f.loopDone P x result) := by
  cases result with
  | action a => exact frees_loopFnPostHandler P hunit hl
  | failed => exact frees_exception hunit (.inl hl)

/-- What follows a forwarded packet frees nothing. -/
theorem freesNone_runAfterForward {action : AfAction} : FreesNone f (f.runAfterForward x action) := by
  unfold runAfterForward
  dsimp only
  split
  · exact .of_effects (effects_setWorkUnit f x _)
  · exact .of_effects (effects_setWorkUnit f x _)

/-- `pop_front` takes out a packet that has been moved from. -/
theorem freesNone_popFront (pos : Position) : FreesNone f ((f.popFront x).push x pos) :=
  .of_effects (effects_setWorkUnit f x _)

/-- The drain frees only packets that a closed work unit refuses. -/
theorem frees_runDrain (hunit : ∀ y, f.getWorkUnit y = f₀.getWorkUnit y) :
    Frees (Excused f₀ l) f (f.runDrain P x) := by
  unfold runDrain
  split
  · split
    · exact (freesNone_startLoop _).frees
    · exact .of_effects rfl
  · rename_i b q hbuffer
    have hpre := freesNone_preprocessPacket P (f := f) (x := x) b.pkt b.isSend
    have hother := (quiet_preprocessPacket P f x b.pkt b.isSend).other
    dsimp only
    split
    · refine frees_passOn P (hpre.trans (.of_effects (effects_setWorkUnit _ x _))) ?_
        fun p hs hp => .inr (.inr ⟨b, by rw [← hunit, hbuffer]; rfl, hs, hp⟩)
      rw [push, getWorkUnit_setStack, getWorkUnit_setWorkUnit_not, hother, hunit]
    · exact (hpre.trans (FreesNone.trans (.of_effects (effects_setWorkUnit _ x _))
        (freesNone_startLoop _))).frees

/-- The drain at a close frees only packets that a closed work unit refuses. -/
theorem frees_runCloseDrain (hunit : ∀ y, f.getWorkUnit y = f₀.getWorkUnit y) :
    Frees (Excused f₀ l) f (f.runCloseDrain P x) := by
  unfold runCloseDrain
  split
  · refine Frees.trans (.of_effects (effects_setWorkUnit f x _)) (freesNone_emit ?_).frees
    simp
  · rename_i b q hbuffer
    dsimp only
    refine frees_passOn P (FreesNone.trans (.of_effects (effects_setWorkUnit f x _))
      (freesNone_preprocessAndForward P b.pkt b.isSend)) ?_
        fun p hs hp => .inr (.inr ⟨b, by rw [← hunit, hbuffer]; rfl, hs, hp⟩)
    rw [push, getWorkUnit_setStack, (quiet_preprocessAndForward P _ x b.pkt b.isSend).other,
      getWorkUnit_setWorkUnit_not, hunit]

/-- A frame that goes on frees only what is excused. -/
theorem frees_runPosition (hunit : ∀ y, f.getWorkUnit y = f₀.getWorkUnit y) (pos : Position) :
    Frees (Excused f₀ l) f (f.runPosition P x pos) := by
  cases pos with
  | invoke => exact .of_effects rfl
  | afterForward action => exact freesNone_runAfterForward.frees
  | drain => exact frees_runDrain P hunit
  | drainPop => exact (freesNone_popFront .drain).frees
  | closeDrain => exact frees_runCloseDrain P hunit
  | closePop => exact (freesNone_popFront .closeDrain).frees

end

/-- A packet is freed only for the cause that the effect names. -/
theorem frees_step (P : Ppr σ π κ) {f f' : AsyncFlowImpl σ π κ} {l : Label π}
    (h : f.step P l = some f') : Frees (Excused f l) f f' := by
  cases l with
  | packet pkt direction =>
    rw [step] at h
    split at h
    case isFalse => cases h
    case isTrue =>
      cases h
      exact frees_handlePacketSend P
  -- The close context carries the null packet.
  | passiveClose x =>
    rw [step] at h
    split at h
    case isFalse => cases h
    case isTrue =>
      cases h
      exact freesNone_pprPassiveClose.frees
  | register x s ev | unregister x s ev | runLoop x =>
    cases h
    exact .of_effects (effects_setWorkUnit f x _)
  | destroyInitialContext =>
    cases h
    exact .of_effects rfl
  | loopDone x result =>
    rw [step] at h
    split at h
    case isFalse => cases h
    case isTrue =>
      cases h
      have hunit : ∀ y, (f.setPendingLoops x (f.pendingLoops x - 1)).getWorkUnit y = f.getWorkUnit y :=
        fun _ => rfl
      exact frees_loopDone P hunit (.inl rfl)
  | callLoop result =>
    rw [step] at h
    split at h
    case h_2 => cases h
    case h_1 x rest hstack =>
      have hunit : ∀ y, (f.setStack rest).getWorkUnit y = f.getWorkUnit y := fun _ => rfl
      dsimp only at h
      split at h
      · -- A loop function that is ready at once goes on as a completion does.
        cases result with
        | none =>
          cases h
          exact .of_effects rfl
        | some result =>
          cases h
          exact frees_loopDone P hunit (.inr ⟨rfl, rest, hstack⟩)
      · -- A loop function that was closed throws when it is called.
        rename_i hloop
        cases h
        exact frees_exception hunit (.inr ⟨by simpa using hloop, result, rest, rfl, hstack⟩)
  | goOn =>
    rw [step] at h
    split at h
    case h_1 => cases h
    case h_2 x pos rest hstack =>
      split at h
      case isTrue => cases h
      case isFalse =>
        cases h
        have hunit : ∀ y, (f.setStack rest).getWorkUnit y = f.getWorkUnit y := fun _ => rfl
        exact frees_runPosition P hunit pos

end Netstar.Proofs.AsyncFlow
