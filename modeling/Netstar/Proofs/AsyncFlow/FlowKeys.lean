import Netstar.Proofs.AsyncFlow.WorkUnits

/-!
# `Netstar.Proofs.AsyncFlow.FlowKeys`: the keys of a double-direction flow

The client key of a flow behaves like the key of a single-direction flow: the manager inserts it,
and `close_ppr_and_remove_flow_key` removes it. The server key does not. `handle_packet_recv` of
the server work unit inserts the reverse key of a packet, but it never stores that key in
`flow_key`. So the server work unit inserts a key for every packet that reaches it.

`DdKeyStep` is a call that inserts nothing, and `AddsMapping` is one that inserts a reverse key.
`passedOn` tells which of the two a step is, from the state before it.
-/

set_option autoImplicit false

namespace Netstar.Proofs.AsyncFlow

open Netstar.Spec.AsyncFlow
open Netstar.Spec.AsyncFlow.AsyncFlowImpl

variable {σ π κ : Type}

/-! ### The keys of one flow -/

/-- The effects that change the flow table. -/
def tableCalls (es : List (Effect π κ)) : List (Effect π κ) :=
  es.filter fun
    | .addMapping _ | .removeMapping _ => true
    | _ => false

/-- The calls of the flow table come in order. -/
@[simp] theorem tableCalls_append (es es' : List (Effect π κ)) :
    tableCalls (es ++ es') = tableCalls es ++ tableCalls es' :=
  List.filter_append ..

/-- The keys of a flow: the server has none, and the client has one until it is closed. -/
structure KeysOk (f : AsyncFlowImpl σ π κ) : Prop where
  server : f.server.flowKey = none
  client : f.client.flowKey = none ↔ f.client.pprClose = true

/-- The calls of the flow table that fit what happened to the client key: it is the same, or its
mapping was removed and it is gone. -/
def FitsClientKey (f f' : AsyncFlowImpl σ π κ) (calls : List (Effect π κ)) : Prop :=
  calls = [] ∧ f'.client.flowKey = f.client.flowKey ∨
    ∃ key, calls = [.removeMapping key] ∧ f.client.flowKey = some key ∧ f'.client.flowKey = none

/-- A call that inserts nothing. -/
def DdKeyStep (f f' : AsyncFlowImpl σ π κ) : Prop :=
  KeysOk f → KeysOk f' ∧
    ∃ es, f'.effects = f.effects ++ es ∧ FitsClientKey f f' (tableCalls es)

/-- A call that inserts a key, as the last change of the table. -/
def AddsMapping (f f' : AsyncFlowImpl σ π κ) : Prop :=
  KeysOk f → KeysOk f' ∧
    ∃ es calls key, f'.effects = f.effects ++ es ∧ tableCalls es = calls ++ [.addMapping key] ∧
      FitsClientKey f f' calls

/-- Two calls after each other fit the client key. -/
theorem FitsClientKey.append {f g h : AsyncFlowImpl σ π κ} {calls calls' : List (Effect π κ)}
    (hfg : FitsClientKey f g calls) (hgh : FitsClientKey g h calls') :
    FitsClientKey f h (calls ++ calls') := by
  rcases hfg with ⟨rfl, hkey⟩ | ⟨key, rfl, hsome, hnone⟩
  · rcases hgh with ⟨rfl, hkey'⟩ | ⟨key', rfl, hsome', hnone'⟩
    · exact .inl ⟨rfl, hkey'.trans hkey⟩
    · exact .inr ⟨key', rfl, hkey ▸ hsome', hnone'⟩
  · rcases hgh with ⟨rfl, hkey'⟩ | ⟨key', rfl, hsome', hnone'⟩
    · exact .inr ⟨key, rfl, hsome, hkey'.trans hnone⟩
    · rw [hnone] at hsome'
      cases hsome'

namespace DdKeyStep

variable {f g h : AsyncFlowImpl σ π κ}

/-- A step that keeps both keys and does not call the flow table. -/
theorem of_eq (es : List (Effect π κ)) (heffects : g.effects = f.effects ++ es)
    (hcalls : tableCalls es = []) (hkey : g.client.flowKey = f.client.flowKey)
    (hclose : g.client.pprClose = f.client.pprClose)
    (hserver : g.server.flowKey = f.server.flowKey) : DdKeyStep f g := by
  intro hf
  refine ⟨⟨hserver.trans hf.server, ?_⟩, es, heffects, .inl ⟨hcalls, hkey⟩⟩
  rw [hkey, hclose]
  exact hf.client

/-- Doing nothing keeps the keys. -/
theorem refl (f : AsyncFlowImpl σ π κ) : DdKeyStep f f :=
  of_eq [] (List.append_nil _).symm rfl rfl rfl rfl

/-- Two steps that remove at most their own keys, one after another. -/
theorem trans (hfg : DdKeyStep f g) (hgh : DdKeyStep g h) : DdKeyStep f h := by
  intro hf
  obtain ⟨hg, es, hes, hfirst⟩ := hfg hf
  obtain ⟨hh, es', hes', hsecond⟩ := hgh hg
  refine ⟨hh, es ++ es', by rw [hes', hes, List.append_assoc], ?_⟩
  rw [tableCalls_append]
  exact hfirst.append hsecond

/-- A mapping that is added after a step that removes at most its own keys. -/
theorem adds (hfg : DdKeyStep f g) (hgh : AddsMapping g h) : AddsMapping f h := by
  intro hf
  obtain ⟨hg, es, hes, hfirst⟩ := hfg hf
  obtain ⟨hh, es', calls, key, hes', hcalls, hsecond⟩ := hgh hg
  refine ⟨hh, es ++ es', tableCalls es ++ calls, key, ?_, ?_, hfirst.append hsecond⟩
  · rw [hes', hes, List.append_assoc]
  · rw [tableCalls_append, hcalls, List.append_assoc]

end DdKeyStep

/-- What follows the insertion leaves the client work unit alone, so it does not call the table. -/
theorem AddsMapping.trans {f g h : AsyncFlowImpl σ π κ} (hfg : AddsMapping f g)
    (hgh : DdKeyStep g h) (hclient : h.client = g.client) : AddsMapping f h := by
  intro hf
  obtain ⟨hg, es, calls, key, hes, hcalls, hfirst⟩ := hfg hf
  obtain ⟨hh, es', hes', hsecond⟩ := hgh hg
  have hnone : tableCalls es' = [] := by
    rcases hsecond with ⟨hnone, -⟩ | ⟨key', -, hsome, hnone⟩
    · exact hnone
    · rw [hclient, hsome] at hnone
      cases hnone
  refine ⟨hh, es ++ es', calls, key, by rw [hes', hes, List.append_assoc], ?_, ?_⟩
  · rw [tableCalls_append, hcalls, hnone, List.append_nil]
  · rw [FitsClientKey, hclient]
    exact hfirst

/-- A call that inserts a key if and only if `adds` holds. -/
def KeyStepIf (adds : Prop) (f f' : AsyncFlowImpl σ π κ) : Prop :=
  (adds → AddsMapping f f') ∧ (¬adds → DdKeyStep f f')

/-- A step that adds nothing, where the condition to add does not hold. -/
theorem DdKeyStep.keyStepIf {adds : Prop} {f f' : AsyncFlowImpl σ π κ} (h : DdKeyStep f f')
    (hadds : ¬adds) : KeyStepIf adds f f' :=
  ⟨fun hcontra => (hadds hcontra).elim, fun _ => h⟩

/-- A conditional step after one that adds nothing. -/
theorem DdKeyStep.trans_if {adds adds' : Prop} {f g h : AsyncFlowImpl σ π κ}
    (hfg : DdKeyStep f g) (hgh : KeyStepIf adds g h) (hiff : adds' ↔ adds) :
    KeyStepIf adds' f h :=
  ⟨fun hadds => hfg.adds (hgh.1 (hiff.mp hadds)),
    fun hadds => hfg.trans (hgh.2 (fun hcontra => hadds (hiff.mpr hcontra)))⟩

/-! ### The functions of a flow -/

/-- A change of a work unit that leaves its key and its close flag alone. -/
theorem ddKeyStep_setWorkUnit (f : AsyncFlowImpl σ π κ) (x : Bool) {u : AfWorkUnit σ π κ}
    (hkey : u.flowKey = (f.getWorkUnit x).flowKey)
    (hclose : u.pprClose = (f.getWorkUnit x).pprClose) : DdKeyStep f (f.setWorkUnit x u) := by
  cases x with
  | true => exact .of_eq [] (List.append_nil _).symm rfl hkey hclose rfl
  | false => exact .of_eq [] (List.append_nil _).symm rfl rfl rfl hkey

/-- Effects that do not call the flow table. -/
theorem ddKeyStep_emit (f : AsyncFlowImpl σ π κ) {es : List (Effect π κ)}
    (hcalls : tableCalls es = []) : DdKeyStep f (f.emit es) :=
  .of_eq es rfl hcalls rfl rfl rfl

/-- The stack has no keys. -/
theorem ddKeyStep_setStack (f : AsyncFlowImpl σ π κ) (stack : List Frame) :
    DdKeyStep f (f.setStack stack) :=
  .of_eq [] (List.append_nil _).symm rfl rfl rfl rfl

/-- A new frame has no keys. -/
theorem ddKeyStep_push (f : AsyncFlowImpl σ π κ) (x : Bool) (pos : Position) :
    DdKeyStep f (f.push x pos) :=
  ddKeyStep_setStack f _

/-- A freed packet does not reach the flow table. -/
theorem ddKeyStep_freePacket (f : AsyncFlowImpl σ π κ) (pkt : RtePacket π) (x s : Bool)
    (cause : FreeCause) : DdKeyStep f (f.freePacket pkt x s cause) := by
  apply ddKeyStep_emit
  cases pkt <;> rfl

/-- A packet that is sent out does not reach the flow table. -/
theorem ddKeyStep_sendPacketOut (f : AsyncFlowImpl σ π κ) (pkt : RtePacket π) (x : Bool) :
    DdKeyStep f (f.sendPacketOut pkt x) := by
  apply ddKeyStep_emit
  cases pkt <;> rfl

/-- Closing the client removes its mapping. The server has no key to remove. -/
theorem ddKeyStep_closePprAndRemoveFlowKey (f : AsyncFlowImpl σ π κ) (x : Bool) :
    DdKeyStep f (f.closePprAndRemoveFlowKey x) := by
  intro hf
  cases x with
  | true =>
    refine ⟨⟨hf.server, iff_of_true rfl rfl⟩, f.client.flowKey.toList.map .removeMapping, rfl, ?_⟩
    cases hkey : f.client.flowKey with
    | none => exact .inl ⟨rfl, hkey.symm⟩
    | some key => exact .inr ⟨key, rfl, hkey, rfl⟩
  | false =>
    refine ⟨⟨rfl, hf.client⟩, [], ?_, .inl ⟨rfl, rfl⟩⟩
    rw [closePprAndRemoveFlowKey]
    simp [getWorkUnit, hf.server]

/-- The call of a loop function does not reach the flow table. -/
theorem ddKeyStep_startLoop (f : AsyncFlowImpl σ π κ) (x : Bool) (context : PacketContext π) :
    DdKeyStep f (f.startLoop x context) := by
  have hset : DdKeyStep f
      (f.setWorkUnit x { f.getWorkUnit x with curContext := some context }) :=
    ddKeyStep_setWorkUnit f x rfl rfl
  exact hset.trans (ddKeyStep_push _ x .invoke)

variable (P : Ppr σ π κ)

/-- The preprocessor keeps the keys. -/
theorem ddKeyStep_callPpr (f : AsyncFlowImpl σ π κ) (x : Bool) (pkt : RtePacket π) (s : Bool) :
    DdKeyStep f (f.callPpr P x pkt s).1 :=
  ddKeyStep_setWorkUnit f x rfl rfl

/-- A filtered close event removes the key of the work unit. -/
theorem ddKeyStep_preprocessPacket (f : AsyncFlowImpl σ π κ) (x : Bool) (pkt : RtePacket π)
    (s : Bool) : DdKeyStep f (f.preprocessPacket P x pkt s).1 := by
  have hcall := ddKeyStep_callPpr P f x pkt s
  unfold preprocessPacket
  dsimp only
  generalize (if s = true then _ else _ : FilteredEvents) = fe
  split
  · exact hcall.trans (ddKeyStep_closePprAndRemoveFlowKey _ x)
  · exact hcall

/-- A generated close event removes the key of the work unit. -/
theorem ddKeyStep_preprocessAndForward (f : AsyncFlowImpl σ π κ) (x : Bool) (pkt : RtePacket π)
    (s : Bool) : DdKeyStep f (f.preprocessAndForward P x pkt s) := by
  have hcall := ddKeyStep_callPpr P f x pkt s
  unfold preprocessAndForward
  dsimp only
  split
  · exact hcall.trans (ddKeyStep_closePprAndRemoveFlowKey _ x)
  · exact hcall

/-- A packet that arrives at a work unit removes at most its key. -/
theorem ddKeyStep_actionAfterPacketHandle (f : AsyncFlowImpl σ π κ) (x : Bool)
    (pkt : RtePacket π) (s : Bool) : DdKeyStep f (f.actionAfterPacketHandle P x pkt s).1 := by
  unfold actionAfterPacketHandle
  dsimp only
  split
  · split
    · have hpre := ddKeyStep_preprocessPacket P f x pkt s
      split
      · exact hpre
      · exact hpre.trans (ddKeyStep_startLoop _ x _)
    · exact ddKeyStep_setWorkUnit f x rfl rfl
  · exact ddKeyStep_preprocessAndForward P f x pkt s

/-- The loop of one work unit does not touch the other. -/
theorem getWorkUnit_not_startLoop (f : AsyncFlowImpl σ π κ) (x : Bool)
    (context : PacketContext π) :
    (f.startLoop x context).getWorkUnit (!x) = f.getWorkUnit (!x) := by
  simp [startLoop, push]

/-- `action_after_packet_handle` does not touch the other work unit. -/
theorem getWorkUnit_not_actionAfterPacketHandle (f : AsyncFlowImpl σ π κ) (x : Bool)
    (pkt : RtePacket π) (s : Bool) :
    (f.actionAfterPacketHandle P x pkt s).1.getWorkUnit (!x) = f.getWorkUnit (!x) := by
  unfold actionAfterPacketHandle
  dsimp only
  split
  · split
    · have hpre := (quiet_preprocessPacket P f x pkt s).other
      split
      · exact hpre
      · exact (getWorkUnit_not_startLoop _ x _).trans hpre
    · exact getWorkUnit_setWorkUnit_not f x _
  · exact (quiet_preprocessAndForward P f x pkt s).other

/-- Behind its guard `handle_packet_recv` sends what the action passes on. -/
theorem handlePacketRecv_eq {f : AsyncFlowImpl σ π κ} {pkt : RtePacket π} {y : Bool}
    (hopen : ¬((f.getWorkUnit y).pprClose || pkt.isNone) = true)
    {r : AsyncFlowImpl σ π κ × Option (RtePacket π)}
    (hr : (f.addReverseMapping P pkt y).actionAfterPacketHandle P y pkt false = r) :
    f.handlePacketRecv P pkt y = r.2.elim r.1 (r.1.sendPacketOut · y) := by
  rw [handlePacketRecv, if_neg hopen, hr]
  obtain ⟨g, _ | pkt'⟩ := r
  · rfl
  · rfl

/-- The work unit of the client only gets packets while it is open, and then it has a key. The work
unit of the server never has one, so it inserts a key for every packet. -/
theorem keyStepIf_handlePacketRecv (f : AsyncFlowImpl σ π κ) (pkt : RtePacket π) (y : Bool) :
    KeyStepIf (y = false ∧ pkt.isSome ∧ f.server.pprClose = false) f
      (f.handlePacketRecv P pkt y) := by
  have hafter (g : AsyncFlowImpl σ π κ) (pkt' : RtePacket π) :
      DdKeyStep g ((g.actionAfterPacketHandle P y pkt' false).2.elim
        (g.actionAfterPacketHandle P y pkt' false).1
        ((g.actionAfterPacketHandle P y pkt' false).1.sendPacketOut · y)) := by
    have haction := ddKeyStep_actionAfterPacketHandle P g y pkt' false
    cases (g.actionAfterPacketHandle P y pkt' false).2 with
    | none => exact haction
    | some pkt => exact haction.trans (ddKeyStep_sendPacketOut _ _ y)
  by_cases hopen : ((f.getWorkUnit y).pprClose || pkt.isNone) = true
  · rw [handlePacketRecv, if_pos hopen]
    refine (ddKeyStep_freePacket f pkt y false .closedUnit).keyStepIf ?_
    rintro ⟨rfl, hpkt, hclose⟩
    cases pkt <;> simp_all [getWorkUnit]
  · rw [handlePacketRecv_eq P hopen rfl]
    cases y with
    | true =>
      refine ⟨fun hcontra => Bool.noConfusion hcontra.1, fun _ hf => ?_⟩
      have hkey : f.client.flowKey ≠ none := by
        intro hnone
        rw [hf.client] at hnone
        simp [getWorkUnit, hnone] at hopen
      obtain ⟨key, hsome⟩ := Option.ne_none_iff_exists'.mp hkey
      -- The client has its key already, so no mapping is added.
      have hsame : f.addReverseMapping P pkt true = f := by
        simp [addReverseMapping, getWorkUnit, hsome]
      rw [hsame]
      exact hafter f pkt hf
    | false =>
      refine ⟨fun _ hf => ?_, fun hcontra => ?_⟩
      · have hnew : f.addReverseMapping P pkt false =
            f.emit [.addMapping (P.getReverseFlowKey f.server.ppr pkt)] := by
          simp [addReverseMapping, getWorkUnit, hf.server]
        rw [hnew]
        have hadds : AddsMapping f
            (f.emit [.addMapping (P.getReverseFlowKey f.server.ppr pkt)]) :=
          fun hf => ⟨⟨hf.server, hf.client⟩, _, [], _, rfl, rfl, .inl ⟨rfl, rfl⟩⟩
        refine hadds.trans (hafter _ pkt) ?_ hf
        have hclient := getWorkUnit_not_actionAfterPacketHandle P
          (f.emit [.addMapping (P.getReverseFlowKey f.server.ppr pkt)]) false pkt false
        generalize actionAfterPacketHandle P _ false pkt false = r at hclient
        obtain ⟨g, _ | pkt'⟩ := r
        · exact hclient
        · exact hclient
      · simp only [getWorkUnit, Bool.or_eq_true, Option.isNone_iff_eq_none, not_or] at hopen
        refine (hcontra ⟨rfl, Option.isSome_iff_ne_none.mpr hopen.2, ?_⟩).elim
        simpa using hopen.1

/-- Only a packet from the client that is passed on to an open server work unit adds a mapping. -/
theorem keyStepIf_internalPacketForward (f : AsyncFlowImpl σ π κ) (pkt : RtePacket π)
    (x s : Bool) :
    KeyStepIf (x = true ∧ s = true ∧ pkt.isSome ∧ f.server.pprClose = false) f
      (f.internalPacketForward P pkt x s) := by
  unfold internalPacketForward
  split
  case isTrue hsend =>
    refine (DdKeyStep.refl f).trans_if (keyStepIf_handlePacketRecv P f pkt (!x)) ?_
    simp [hsend]
  case isFalse hrecv =>
    refine (ddKeyStep_sendPacketOut f pkt x).keyStepIf ?_
    rintro ⟨-, hsend, -⟩
    exact hrecv hsend

/-- A work unit changes and then forwards a packet. -/
theorem DdKeyStep.forward {f g : AsyncFlowImpl σ π κ} {x : Bool} (hfg : DdKeyStep f g)
    (hother : g.getWorkUnit (!x) = f.getWorkUnit (!x)) (pkt : RtePacket π) (s : Bool) :
    KeyStepIf (x = true ∧ s = true ∧ pkt.isSome ∧ f.server.pprClose = false) f
      (g.internalPacketForward P pkt x s) := by
  refine hfg.trans_if (keyStepIf_internalPacketForward P g pkt x s) ?_
  cases x with
  | true =>
    have hserver : g.server = f.server := hother
    rw [hserver]
  | false => simp

/-- A row of freed packets does not reach the flow table. -/
theorem ddKeyStep_freeAll (q : List (BufferedPacket π)) (x : Bool) (cause : FreeCause)
    (f : AsyncFlowImpl σ π κ) :
    DdKeyStep f (q.foldl (fun f b => f.freePacket b.pkt x b.isSend cause) f) := by
  induction q generalizing f with
  | nil => exact .refl f
  | cons b q ih => exact (ddKeyStep_freePacket f b.pkt x b.isSend cause).trans (ih _)

/-- The exception handler keeps the keys. -/
theorem ddKeyStep_asyncLoopExceptionHandler (f : AsyncFlowImpl σ π κ) (x : Bool) :
    DdKeyStep f (f.asyncLoopExceptionHandler x) := by
  have hreset : DdKeyStep f { f with initialContextDestroyed := false } :=
    .of_eq [] (List.append_nil _).symm rfl rfl rfl rfl
  have hcontext (c : Option (PacketContext π)) (g : AsyncFlowImpl σ π κ) :
      DdKeyStep g (c.elim g fun c => g.freePacket c.pkt x c.isSend .exception) := by
    cases c with
    | none => exact .refl g
    | some c => exact ddKeyStep_freePacket g c.pkt x c.isSend .exception
  unfold asyncLoopExceptionHandler
  refine .trans ?_ (ddKeyStep_emit _ rfl)
  refine .trans ?_ (ddKeyStep_freeAll _ x .exception _)
  refine .trans ?_ (hcontext _ _)
  refine hreset.trans (ddKeyStep_setWorkUnit _ x ?_ ?_) <;> cases x <;> rfl

/-- `pop_front` keeps the keys. -/
theorem ddKeyStep_popFront (f : AsyncFlowImpl σ π κ) (x : Bool) : DdKeyStep f (f.popFront x) :=
  ddKeyStep_setWorkUnit f x rfl rfl

/-- What follows a forwarded packet keeps the keys. -/
theorem ddKeyStep_runAfterForward (f : AsyncFlowImpl σ π κ) (x : Bool) (action : AfAction) :
    DdKeyStep f (f.runAfterForward x action) := by
  unfold runAfterForward
  dsimp only
  split
  · refine .trans ?_ (ddKeyStep_push _ x _)
    exact ddKeyStep_setWorkUnit f x rfl rfl
  · refine .trans ?_ (ddKeyStep_push _ x _)
    exact ddKeyStep_setWorkUnit f x rfl rfl

/-! ### The packets that leave the client work unit for the server work unit -/

/-- The packet that `loop_fn_post_handler` of the client passes on. -/
def contextPassedOn (f : AsyncFlowImpl σ π κ) (action : AfAction) : RtePacket π :=
  match f.client.curContext with
  | none => none
  | some context => if action.forwards ∧ context.isSend then context.pkt else none

/-- The packet that one round of the loop of `loop_fn_post_handler` of the client passes on. -/
def drainPassedOn (f : AsyncFlowImpl σ π κ) : RtePacket π :=
  match f.client.bufferQ with
  | [] => none
  | b :: _ =>
    if (f.preprocessPacket P true b.pkt b.isSend).2.noEvent ∧ b.isSend then b.pkt else none

/-- The packet that one round of the loop of `close_async_loop` of the client passes on. -/
def closeDrainPassedOn (f : AsyncFlowImpl σ π κ) : RtePacket π :=
  match f.client.bufferQ with
  | [] => none
  | b :: _ => if b.isSend then b.pkt else none

/-- The packet of the client side that a step passes on to `handle_packet_recv` of the server work
unit, or the null packet. -/
def passedOn (f : AsyncFlowImpl σ π κ) : Label π → RtePacket π
  | .packet pkt direction =>
    if direction = f.client.direction ∧ f.client.pprClose = false ∧ f.initialContextDestroyed then
      (f.actionAfterPacketHandle P true (some pkt) true).2.join
    else none
  | .loopDone true (.action a) => contextPassedOn f a
  | .callLoop (some (.action a)) =>
    match f.stack with
    | ⟨true, .invoke⟩ :: _ => if f.client.loopFn then contextPassedOn f a else none
    | _ => none
  | .goOn =>
    match f.stack with
    | ⟨true, .drain⟩ :: _ => drainPassedOn P f
    | ⟨true, .closeDrain⟩ :: _ => closeDrainPassedOn f
    | _ => none
  | _ => none

/-- The step passes a packet of the client side on to an open server work unit. -/
def ReachesOpenServer (f : AsyncFlowImpl σ π κ) (l : Label π) : Prop :=
  (passedOn P f l).isSome ∧ f.server.pprClose = false

attribute [grind =] passedOn

/-- A completed iteration of the client's loop passes the packet of the context on. -/
theorem keyStepIf_loopFnPostHandler (f : AsyncFlowImpl σ π κ) (x : Bool) (action : AfAction) :
    KeyStepIf (x = true ∧ (contextPassedOn f action).isSome ∧ f.server.pprClose = false) f
      (f.loopFnPostHandler P x action) := by
  unfold loopFnPostHandler
  dsimp only
  split
  case h_1 hcontext =>
    refine (DdKeyStep.refl f).keyStepIf ?_
    rintro ⟨rfl, hpkt, -⟩
    have hcontext' : f.client.curContext = none := hcontext
    simp [contextPassedOn, hcontext'] at hpkt
  case h_2 context hcontext =>
    have hmoved : DdKeyStep f ((f.setWorkUnit x { f.getWorkUnit x with
        curContext := some { context with pkt := none } }).push x (.afterForward action)) := by
      refine .trans ?_ (ddKeyStep_push _ x _)
      exact ddKeyStep_setWorkUnit f x rfl rfl
    split
    case isTrue hforward =>
      refine (DdKeyStep.refl f).trans_if (hmoved.forward P ?_ context.pkt context.isSend) ?_
      · simp [push]
      · refine and_congr_right ?_
        rintro rfl
        have hcontext' : f.client.curContext = some context := hcontext
        cases hsend : context.isSend <;> simp [contextPassedOn, hcontext', hforward, hsend]
    case isFalse hdrop =>
      refine (hmoved.trans (ddKeyStep_freePacket _ _ x _ _)).keyStepIf ?_
      rintro ⟨rfl, hpkt, -⟩
      have hcontext' : f.client.curContext = some context := hcontext
      simp [contextPassedOn, hcontext', hdrop] at hpkt

/-- The drain of the client's buffer passes packets without events on. -/
theorem keyStepIf_runDrain (f : AsyncFlowImpl σ π κ) (x : Bool) :
    KeyStepIf (x = true ∧ (drainPassedOn P f).isSome ∧ f.server.pprClose = false) f
      (f.runDrain P x) := by
  unfold runDrain
  split
  case h_1 hempty =>
    have hend : DdKeyStep f (if (f.getWorkUnit x).pprClose = true then
        f.startLoop x ⟨none, .makeCloseEvent, true⟩ else f) := by
      split
      · exact ddKeyStep_startLoop f x _
      · exact .refl f
    refine hend.keyStepIf ?_
    rintro ⟨rfl, hpkt, -⟩
    have hempty' : f.client.bufferQ = [] := hempty
    simp [drainPassedOn, hempty'] at hpkt
  case h_2 b q hfront =>
    have hpre := ddKeyStep_preprocessPacket P f x b.pkt b.isSend
    have hother := (quiet_preprocessPacket P f x b.pkt b.isSend).other
    dsimp only
    split
    case isTrue hnoEvent =>
      have hmoved : DdKeyStep f
          (((f.preprocessPacket P x b.pkt b.isSend).1.setWorkUnit x
            { (f.preprocessPacket P x b.pkt b.isSend).1.getWorkUnit x with
                bufferQ := { b with pkt := none } :: q }).push x .drainPop) := by
        refine hpre.trans (.trans ?_ (ddKeyStep_push _ x _))
        exact ddKeyStep_setWorkUnit _ x rfl rfl
      refine (DdKeyStep.refl f).trans_if (hmoved.forward P ?_ b.pkt b.isSend) ?_
      · simp [push, hother]
      · refine and_congr_right ?_
        rintro rfl
        have hfront' : f.client.bufferQ = b :: q := hfront
        cases hsend : b.isSend <;> simp_all [drainPassedOn]
    case isFalse hevent =>
      refine DdKeyStep.keyStepIf (hpre.trans (.trans ?_ (ddKeyStep_startLoop _ x _))) ?_
      · exact ddKeyStep_setWorkUnit _ x rfl rfl
      · rintro ⟨rfl, hpkt, -⟩
        have hfront' : f.client.bufferQ = b :: q := hfront
        simp [drainPassedOn, hfront', hevent] at hpkt

/-- The drain at the close of the client's loop passes every packet on. -/
theorem keyStepIf_runCloseDrain (f : AsyncFlowImpl σ π κ) (x : Bool) :
    KeyStepIf (x = true ∧ (closeDrainPassedOn f).isSome ∧ f.server.pprClose = false) f
      (f.runCloseDrain P x) := by
  unfold runCloseDrain
  split
  case h_1 hempty =>
    refine DdKeyStep.keyStepIf (.trans ?_ (ddKeyStep_emit _ rfl)) ?_
    · exact ddKeyStep_setWorkUnit f x rfl rfl
    · rintro ⟨rfl, hpkt, -⟩
      have hempty' : f.client.bufferQ = [] := hempty
      simp [closeDrainPassedOn, hempty'] at hpkt
  case h_2 b q hfront =>
    have hmoved : DdKeyStep f
        (f.setWorkUnit x { f.getWorkUnit x with bufferQ := { b with pkt := none } :: q }) :=
      ddKeyStep_setWorkUnit f x rfl rfl
    have hpre := ddKeyStep_preprocessAndForward P
      (f.setWorkUnit x { f.getWorkUnit x with bufferQ := { b with pkt := none } :: q })
      x b.pkt b.isSend
    have hother := (quiet_preprocessAndForward P
      (f.setWorkUnit x { f.getWorkUnit x with bufferQ := { b with pkt := none } :: q })
      x b.pkt b.isSend).other
    have hpushed := (hmoved.trans hpre).trans (ddKeyStep_push _ x .closePop)
    refine (DdKeyStep.refl f).trans_if (hpushed.forward P ?_ b.pkt b.isSend) ?_
    · simp [push, hother]
    · refine and_congr_right ?_
      rintro rfl
      have hfront' : f.client.bufferQ = b :: q := hfront
      cases hsend : b.isSend <;> simp [closeDrainPassedOn, hfront', hsend]

/-- A packet that arrives adds a mapping when it is passed on to an open server work unit. -/
theorem keyStepIf_handlePacketSend (f : AsyncFlowImpl σ π κ) (pkt : π) (direction : Nat) :
    KeyStepIf (ReachesOpenServer P f (.packet pkt direction)) f
      (f.handlePacketSend P (some pkt) direction) := by
  unfold handlePacketSend
  dsimp only
  split
  case isTrue hclosed =>
    refine (ddKeyStep_freePacket f _ _ _ _).keyStepIf ?_
    rintro ⟨hpkt, -⟩
    rw [passedOn] at hpkt
    split at hpkt
    case isTrue hopen => simp [getWorkUnit, hopen.1, hopen.2.1] at hclosed
    case isFalse => cases hpkt
  case isFalse hopen =>
    split
    case isTrue hcontext =>
      refine (ddKeyStep_freePacket f _ _ _ _).keyStepIf ?_
      rintro ⟨hpkt, -⟩
      rw [passedOn] at hpkt
      split at hpkt
      case isTrue hopen' => simp [hopen'.2.2] at hcontext
      case isFalse => cases hpkt
    case isFalse hcontext =>
      -- The two sides differ only in who the other work unit is.
      by_cases hside : direction = f.client.direction
      case pos =>
        have hpassed : passedOn P f (.packet pkt direction) =
            (f.actionAfterPacketHandle P true (some pkt) true).2.join := by
          rw [passedOn, if_pos]
          simp_all [getWorkUnit]
        rw [ReachesOpenServer, hpassed, beq_iff_eq.mpr hside]
        have haction := ddKeyStep_actionAfterPacketHandle P f true (some pkt) true
        have hother := getWorkUnit_not_actionAfterPacketHandle P f true (some pkt) true
        split
        case h_1 heq =>
          rw [heq] at haction ⊢
          exact haction.keyStepIf (fun hcontra => Bool.noConfusion hcontra.1)
        case h_2 pkt' heq =>
          rw [heq] at haction hother ⊢
          refine (DdKeyStep.refl f).trans_if (haction.forward P hother pkt' true) ?_
          simp
      case neg =>
        have hnone : ¬ReachesOpenServer P f (.packet pkt direction) := by
          simp [ReachesOpenServer, passedOn, hside]
        rw [beq_eq_false_iff_ne.mpr hside]
        have haction := ddKeyStep_actionAfterPacketHandle P f false (some pkt) true
        split
        case h_1 heq =>
          rw [heq] at haction
          exact haction.keyStepIf hnone
        case h_2 pkt' heq =>
          rw [heq] at haction
          refine haction.trans_if (keyStepIf_internalPacketForward P _ pkt' false true) ?_
          simp [hnone]

/-- The timer of a work unit removes its key. -/
theorem ddKeyStep_pprPassiveClose (f : AsyncFlowImpl σ π κ) (x : Bool) :
    DdKeyStep f (f.pprPassiveClose x) := by
  have hclose := ddKeyStep_closePprAndRemoveFlowKey f x
  unfold pprPassiveClose
  dsimp only
  split
  · exact hclose.trans (ddKeyStep_startLoop _ x _)
  · exact hclose

/-- A completion of the client's loop function. -/
theorem keyStepIf_loopDone (f : AsyncFlowImpl σ π κ) (x : Bool) (result : LoopResult) :
    KeyStepIf (x = true ∧ ReachesOpenServer P f (.loopDone true result)) f
      (f.loopDone P x result) := by
  cases result with
  | action a => exact keyStepIf_loopFnPostHandler P f x a
  | failed =>
    refine (ddKeyStep_asyncLoopExceptionHandler f x).keyStepIf ?_
    rintro ⟨-, hpkt, -⟩
    cases hpkt

/-- The end of a loop function only looks at the two work units. -/
theorem reachesOpenServer_congr {f g : AsyncFlowImpl σ π κ} (hclient : g.client = f.client)
    (hserver : g.server = f.server) (result : LoopResult) :
    ReachesOpenServer P g (.loopDone true result) ↔
      ReachesOpenServer P f (.loopDone true result) := by
  cases result <;> simp [ReachesOpenServer, passedOn, contextPassedOn, hclient, hserver]

/-- A completion of the server's loop function passes nothing on to the server. -/
theorem reachesOpenServer_loopDone (f : AsyncFlowImpl σ π κ) (x : Bool) (result : LoopResult) :
    ReachesOpenServer P f (.loopDone x result) ↔
      x = true ∧ ReachesOpenServer P f (.loopDone true result) := by
  cases x with
  | true => simp
  | false => simp [ReachesOpenServer, passedOn]

/-- A synchronous completion of the loop function on the top of the stack. -/
theorem reachesOpenServer_callLoop {f : AsyncFlowImpl σ π κ} {x : Bool} {rest : List Frame}
    (hstack : f.stack = ⟨x, .invoke⟩ :: rest) (result : LoopResult) :
    ReachesOpenServer P f (.callLoop (some result)) ↔
      (f.getWorkUnit x).loopFn = true ∧ x = true ∧
        ReachesOpenServer P f (.loopDone true result) := by
  cases result with
  | failed => simp [ReachesOpenServer, passedOn]
  | action a =>
    cases x with
    | false => simp [ReachesOpenServer, passedOn, hstack]
    | true =>
      cases hloop : f.client.loopFn <;>
        simp [ReachesOpenServer, passedOn, hstack, getWorkUnit, hloop]

/-- The frame on the top of the stack goes on. -/
theorem keyStepIf_goOn {f : AsyncFlowImpl σ π κ} {x : Bool} {pos : Position} {rest : List Frame}
    (hstack : f.stack = ⟨x, pos⟩ :: rest) :
    KeyStepIf (ReachesOpenServer P f .goOn) f ((f.setStack rest).runPosition P x pos) := by
  have hpop := ddKeyStep_setStack f rest
  have hquiet {g : AsyncFlowImpl σ π κ} (h : DdKeyStep (f.setStack rest) g)
      (hpos : pos ≠ .drain ∧ pos ≠ .closeDrain) : KeyStepIf (ReachesOpenServer P f .goOn) f g := by
    refine (hpop.trans h).keyStepIf ?_
    rintro ⟨hpkt, -⟩
    simp only [passedOn, hstack] at hpkt
    split at hpkt <;> simp_all
  cases pos with
  | invoke => exact hquiet (.refl _) (by simp)
  | afterForward action => exact hquiet (ddKeyStep_runAfterForward _ x action) (by simp)
  | drain =>
    refine hpop.trans_if (keyStepIf_runDrain P (f.setStack rest) x) ?_
    rw [ReachesOpenServer]
    cases x with
    | false => simp [passedOn, hstack]
    | true =>
      simp only [passedOn, hstack, true_and]
      rfl
  | drainPop =>
    exact hquiet ((ddKeyStep_popFront _ x).trans (ddKeyStep_push _ x _)) (by simp)
  | closeDrain =>
    refine hpop.trans_if (keyStepIf_runCloseDrain P (f.setStack rest) x) ?_
    rw [ReachesOpenServer]
    cases x with
    | false => simp [passedOn, hstack]
    | true =>
      simp only [passedOn, hstack, true_and]
      rfl
  | closePop =>
    exact hquiet ((ddKeyStep_popFront _ x).trans (ddKeyStep_push _ x _)) (by simp)

/-- A step of a flow inserts a key if and only if it passes a packet of the client side on to the
open server work unit. -/
theorem keyStepIf_step {f f' : AsyncFlowImpl σ π κ} {l : Label π} (h : f.step P l = some f') :
    KeyStepIf (ReachesOpenServer P f l) f f' := by
  -- Most events pass nothing on, and then it is enough that they insert no key.
  have hquiet {l : Label π} (hnone : passedOn P f l = none) (hstep : DdKeyStep f f') :
      KeyStepIf (ReachesOpenServer P f l) f f' :=
    hstep.keyStepIf (fun hcontra => by simp [ReachesOpenServer, hnone] at hcontra)
  cases l with
  | packet pkt direction =>
    rw [AsyncFlowImpl.step] at h
    split at h
    · cases h
      exact keyStepIf_handlePacketSend P f pkt direction
    · cases h
  | passiveClose x =>
    rw [AsyncFlowImpl.step] at h
    split at h
    · cases h
      exact hquiet rfl (ddKeyStep_pprPassiveClose f x)
    · cases h
  | register x s ev | unregister x s ev =>
    cases h
    refine hquiet rfl (ddKeyStep_setWorkUnit f x ?_ ?_) <;> cases s <;> rfl
  | runLoop x =>
    cases h
    exact hquiet rfl (ddKeyStep_setWorkUnit f x rfl rfl)
  | destroyInitialContext =>
    cases h
    exact hquiet rfl (.of_eq [] (List.append_nil _).symm rfl rfl rfl rfl)
  | loopDone x result =>
    rw [AsyncFlowImpl.step] at h
    split at h
    · cases h
      -- The counter of pending loops does not change what the loop passes on.
      have hpending : DdKeyStep f (f.setPendingLoops x (f.pendingLoops x - 1)) :=
        .of_eq [] (List.append_nil _).symm rfl rfl rfl rfl
      refine hpending.trans_if (keyStepIf_loopDone P _ x result) ?_
      rw [reachesOpenServer_congr P (f := f) (g := f.setPendingLoops x _) rfl rfl]
      exact reachesOpenServer_loopDone P f x result
    · cases h
  | callLoop result =>
    rw [AsyncFlowImpl.step] at h
    split at h
    case h_2 => cases h
    case h_1 x rest hstack =>
      have hpop := ddKeyStep_setStack f rest
      dsimp only at h
      split at h
      -- The loop function is gone: its result is never used, so no packet goes on.
      case isFalse hloop =>
        cases h
        refine (hpop.trans (ddKeyStep_asyncLoopExceptionHandler _ x)).keyStepIf ?_
        cases result with
        | none => simp [ReachesOpenServer, passedOn]
        | some result =>
          rw [reachesOpenServer_callLoop P hstack]
          exact fun hcontra => hloop hcontra.1
      case isTrue hloop =>
        cases result with
        | none =>
          cases h
          refine hquiet rfl (hpop.trans ?_)
          exact .of_eq [] (List.append_nil _).symm rfl rfl rfl rfl
        | some result =>
          cases h
          refine hpop.trans_if (keyStepIf_loopDone P _ x result) ?_
          rw [reachesOpenServer_callLoop P hstack,
            reachesOpenServer_congr P (f := f) (g := f.setStack rest) rfl rfl]
          exact and_iff_right hloop
  | goOn =>
    rw [AsyncFlowImpl.step] at h
    split at h
    case h_1 => cases h
    case h_2 x pos rest hstack =>
      split at h
      · cases h
      · cases h
        exact keyStepIf_goOn P hstack

end Netstar.Proofs.AsyncFlow
