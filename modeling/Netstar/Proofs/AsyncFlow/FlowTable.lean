import Netstar.Lib.OwnerTable
import Netstar.Proofs.AsyncFlow.FlowKeys
import Netstar.Proofs.AsyncFlow.SdAsyncFlow
import Netstar.Spec.AsyncFlow.AsyncFlowManager

/-!
# `Netstar.Proofs.AsyncFlow.FlowTable`: the flow table of the double-direction manager

An entry that the server work unit of a flow inserts has no owner, since no work unit stores the
key. Nothing removes the entry, and the next packet that reaches the server work unit can insert
the same key and fail the assertion.

The main result is that the table is consistent in a run exactly as long as no packet of a client
side reaches an open server work unit.
-/

set_option autoImplicit false

namespace Netstar.Proofs.AsyncFlow

open Netstar.Lib
open Netstar.Spec.AsyncFlow
open Netstar.Spec.AsyncFlow.AsyncFlowImpl

variable {σ π κ : Type} (P : Ppr σ π κ) [DecidableEq κ]

/-- The keys of a flow. -/
def DdHasKey (f : AsyncFlowImpl σ π κ) (key : κ) : Prop :=
  f.client.flowKey = some key ∨ f.server.flowKey = some key

/-- No assertion failed, the table and the flows agree on the keys, and a flow whose two work units
are closed has no entry. -/
structure DdTableConsistent (m : AsyncFlowManager σ π κ) : Prop where
  assertHolds : m.assertFailed = false
  owns : Owns DdHasKey m.flowTable m.flows
  closed : ∀ (i : Nat) (f : AsyncFlowImpl σ π κ), m.flows[i]? = some f →
    f.client.pprClose = true → f.server.pprClose = true → ∀ k, m.flowTable.lookup k ≠ some i

/-- The keys of every flow are as they should be. -/
def AllKeysOk (m : AsyncFlowManager σ π κ) : Prop := ∀ f ∈ m.flows, KeysOk f

omit [DecidableEq κ] in
/-- As long as the server has no key, the key of a flow is the client's. -/
theorem KeysOk.hasKey_iff {f : AsyncFlowImpl σ π κ} (hf : KeysOk f) (key : κ) :
    DdHasKey f key ↔ f.client.flowKey = some key := by
  simp [DdHasKey, hf.server]

/-- The part about closed flows follows from the other parts. -/
theorem DdTableConsistent.of_owns {m : AsyncFlowManager σ π κ} (hm : AllKeysOk m)
    (hassert : m.assertFailed = false) (howns : Owns DdHasKey m.flowTable m.flows) :
    DdTableConsistent m := by
  refine ⟨hassert, howns, fun i f hf hclient _ k hk => ?_⟩
  have hkeys := hm f (List.mem_of_getElem? hf)
  obtain ⟨g, hg, hkey⟩ := (howns k i).mp hk
  rw [hf] at hg
  cases hg
  rw [hkeys.hasKey_iff, hkeys.client.mpr hclient] at hkey
  cases hkey

/-- Only calls of the table change the manager. -/
theorem foldl_applyEffect_tableCalls (i : Nat) (es : List (Effect π κ))
    (m : AsyncFlowManager σ π κ) :
    es.foldl (AsyncFlowManager.applyEffect i) m =
      (tableCalls es).foldl (AsyncFlowManager.applyEffect i) m := by
  induction es generalizing m with
  | nil => rfl
  | cons e es ih =>
    rw [List.foldl_cons, ih]
    cases e <;> rfl

/-- The calls of the flow table do not touch the flows. -/
theorem flows_applyEffect (i : Nat) (m : AsyncFlowManager σ π κ) (e : Effect π κ) :
    (m.applyEffect i e).flows = m.flows := by
  cases e with
  | addMapping key =>
    rw [AsyncFlowManager.applyEffect, AsyncFlowManager.addNewMappingToFlowTable]
    split <;> rfl
  | send | removeMapping | free | quit => rfl

/-- The calls of the flow table do not touch the flows. -/
theorem flows_foldl_applyEffect (i : Nat) (es : List (Effect π κ)) (m : AsyncFlowManager σ π κ) :
    (es.foldl (AsyncFlowManager.applyEffect i) m).flows = m.flows := by
  induction es generalizing m with
  | nil => rfl
  | cons e es ih => rw [List.foldl_cons, ih, flows_applyEffect]

omit [DecidableEq κ] in
/-- No step gives the server a key. -/
theorem KeyStepIf.keysOk {adds : Prop} {f f' : AsyncFlowImpl σ π κ} (h : KeyStepIf adds f f')
    (hf : KeysOk f) : KeysOk f' := by
  by_cases hadds : adds
  · exact (h.1 hadds hf).1
  · exact (h.2 hadds hf).1

/-- The manager after a call of a flow that makes these calls of the table. -/
theorem commit_eq {f f' : AsyncFlowImpl σ π κ} {es : List (Effect π κ)}
    (heffects : f'.effects = f.effects ++ es) (m : AsyncFlowManager σ π κ) (i : Nat) :
    m.commit i f f' =
      (tableCalls es).foldl (AsyncFlowManager.applyEffect i)
        { m with flows := m.flows.set i f' } := by
  rw [AsyncFlowManager.commit, heffects, List.drop_left, foldl_applyEffect_tableCalls]

section Commit

variable {m : AsyncFlowManager σ π κ} {i : Nat} {f f' : AsyncFlowImpl σ π κ}

/-- The calls that fit the client key keep the table consistent. -/
theorem owns_of_fitsClientKey (hm : DdTableConsistent m) (hf : m.flows[i]? = some f)
    (hkeys : KeysOk f) (hkeys' : KeysOk f') {calls : List (Effect π κ)}
    (hfits : FitsClientKey f f' calls) :
    let m' := calls.foldl (AsyncFlowManager.applyEffect i) { m with flows := m.flows.set i f' }
    m'.assertFailed = false ∧ Owns DdHasKey m'.flowTable m'.flows := by
  rcases hfits with ⟨rfl, hsame⟩ | ⟨key, rfl, hsome, hnone⟩
  · refine ⟨hm.assertHolds, hm.owns.set hf (fun k => ?_)⟩
    rw [hkeys.hasKey_iff, hkeys'.hasKey_iff, hsame]
  · refine ⟨hm.assertHolds, hm.owns.set_erase hf ((hkeys.hasKey_iff key).mpr hsome) (fun k => ?_)⟩
    rw [hkeys.hasKey_iff, hkeys'.hasKey_iff, hnone, hsome]
    simp [eq_comm]

/-- A call that inserts a key breaks the table: the key was there, or it has no owner now. -/
theorem not_consistent_of_addsMapping (hm : DdTableConsistent m) (hf : m.flows[i]? = some f)
    (hkeys : KeysOk f) (hadds : AddsMapping f f') : ¬DdTableConsistent (m.commit i f f') := by
  obtain ⟨hkeys', es, calls, key, heffects, hcalls, hfits⟩ := hadds hkeys
  rw [commit_eq heffects, hcalls, List.foldl_append, List.foldl_cons, List.foldl_nil]
  obtain ⟨-, howns⟩ := owns_of_fitsClientKey hm hf hkeys hkeys' hfits
  generalize calls.foldl (AsyncFlowManager.applyEffect i)
    { m with flows := m.flows.set i f' } = m₁ at howns
  intro hcontra
  rw [AsyncFlowManager.applyEffect, AsyncFlowManager.addNewMappingToFlowTable] at hcontra
  cases hfree : m₁.flowTable.lookup key with
  | some j =>
    rw [hfree] at hcontra
    exact Bool.noConfusion hcontra.assertHolds
  | none =>
    rw [hfree] at hcontra
    have howner : ∃ g, m₁.flows[i]? = some g ∧ DdHasKey g key :=
      (hcontra.owns key i).mp (AList.lookup_insert _)
    rw [← howns, hfree] at howner
    cases howner

/-- A call on flow `i` keeps the table consistent exactly if it does not insert a key. -/
theorem consistent_commit_iff {adds : Prop} (hall : AllKeysOk m) (hm : DdTableConsistent m)
    (hf : m.flows[i]? = some f) (h : KeyStepIf adds f f') :
    AllKeysOk (m.commit i f f') ∧ (DdTableConsistent (m.commit i f f') ↔ ¬adds) := by
  have hkeys : KeysOk f := hall f (List.mem_of_getElem? hf)
  have hkeys' : KeysOk f' := h.keysOk hkeys
  have hall' : AllKeysOk (m.commit i f f') := by
    intro g hg
    rw [AsyncFlowManager.commit, flows_foldl_applyEffect] at hg
    rcases List.mem_or_eq_of_mem_set hg with hg | rfl
    · exact hall g hg
    · exact hkeys'
  refine ⟨hall', fun hcons hadds => ?_, fun hadds => ?_⟩
  · exact not_consistent_of_addsMapping hm hf hkeys (h.1 hadds) hcons
  · obtain ⟨-, es, heffects, hfits⟩ := h.2 hadds hkeys
    obtain ⟨hassert, howns⟩ := owns_of_fitsClientKey hm hf hkeys hkeys' hfits
    rw [← commit_eq heffects] at hassert howns
    exact .of_owns hall' hassert howns

end Commit

/-- The call on flow `i` passes a packet of its client side on to its open server work unit. -/
def CallReachesOpenServer (m : AsyncFlowManager σ π κ) (i : Nat) (l : AsyncFlowImpl.Label π) :
    Prop :=
  ∃ f, m.flows[i]? = some f ∧ ReachesOpenServer P f l

/-- The step passes a packet of the client side of a flow on to its open server work unit. -/
def StepReachesOpenServer (m : AsyncFlowManager σ π κ) : AsyncFlowManager.Label π κ → Prop
  | .receive direction pkt key =>
    ∃ i, m.flowTable.lookup key = some i ∧ CallReachesOpenServer P m i (.packet pkt direction)
  | .getInitialContext => False
  | .destroyContext c =>
    ∃ item f, m.contexts[c]? = some item ∧ m.flows[item.implPtr]? = some f ∧
      ReachesOpenServer P f.destroyInitialContext (.packet item.pkt item.direction)
  | .passiveClose i x => CallReachesOpenServer P m i (.passiveClose x)
  | .register i x s ev => CallReachesOpenServer P m i (.register x s ev)
  | .unregister i x s ev => CallReachesOpenServer P m i (.unregister x s ev)
  | .runLoop i x => CallReachesOpenServer P m i (.runLoop x)
  | .loopDone i x result => CallReachesOpenServer P m i (.loopDone x result)
  | .callLoop i result => CallReachesOpenServer P m i (.callLoop result)
  | .goOn i => CallReachesOpenServer P m i .goOn

variable {m m' : AsyncFlowManager σ π κ}

/-- A call keeps the table consistent exactly if it adds no reverse key. -/
theorem consistent_callFlow_iff {i : Nat} {l : AsyncFlowImpl.Label π} (hall : AllKeysOk m)
    (hm : DdTableConsistent m) (h : m.callFlow P i l = some m') :
    AllKeysOk m' ∧ (DdTableConsistent m' ↔ ¬CallReachesOpenServer P m i l) := by
  obtain ⟨f, hf, hstep⟩ := Option.bind_eq_some_iff.mp h
  obtain ⟨f', hf', rfl⟩ := Option.map_eq_some_iff.mp hstep
  obtain ⟨hall', hiff⟩ := consistent_commit_iff hall hm hf (keyStepIf_step P hf')
  refine ⟨hall', hiff.trans (not_congr ?_)⟩
  rw [CallReachesOpenServer, hf]
  simp

/-- A new flow gets the free key of its first packet. -/
theorem consistent_newFlow (hall : AllKeysOk m) (hm : DdTableConsistent m) {key : κ}
    (hfree : m.flowTable.lookup key = none) (direction : Nat) (q : List (QueueItem π)) :
    AllKeysOk (⟨m.flowTable.insert key m.flows.length, m.flows ++ [.create P direction key], q,
        m.contexts, m.assertFailed⟩ : AsyncFlowManager σ π κ) ∧
      DdTableConsistent (⟨m.flowTable.insert key m.flows.length,
        m.flows ++ [.create P direction key], q, m.contexts, m.assertFailed⟩ :
          AsyncFlowManager σ π κ) := by
  have hnew : KeysOk (AsyncFlowImpl.create P direction key) := ⟨rfl, iff_of_false nofun nofun⟩
  have hall' : AllKeysOk (⟨m.flowTable.insert key m.flows.length,
      m.flows ++ [.create P direction key], q, m.contexts, m.assertFailed⟩ :
        AsyncFlowManager σ π κ) := by
    intro f hf
    rcases List.mem_append.mp hf with hf | hf
    · exact hall f hf
    · rw [List.mem_singleton] at hf
      exact hf ▸ hnew
  refine ⟨hall', .of_owns hall' hm.assertHolds (hm.owns.push hfree (fun k => ?_))⟩
  rw [hnew.hasKey_iff]
  simp [AsyncFlowImpl.create, eq_comm]

variable {cfg : AsyncFlowConfig}

/-- A packet creates a flow, or it is a call of the flow that has its key. -/
theorem consistent_receive_iff {direction : Nat} {pkt : π} {key : κ} (hall : AllKeysOk m)
    (hm : DdTableConsistent m) (h : m.receive P cfg direction pkt key = some m') :
    AllKeysOk m' ∧
      (DdTableConsistent m' ↔ ¬StepReachesOpenServer P m (.receive direction pkt key)) := by
  unfold AsyncFlowManager.receive at h
  split at h
  case h_2 i hi =>
    obtain ⟨hall', hiff⟩ := consistent_callFlow_iff P hall hm h
    refine ⟨hall', hiff.trans (not_congr ?_)⟩
    rw [StepReachesOpenServer, hi]
    simp
  case h_1 hfree =>
    have hnone : ¬StepReachesOpenServer P m (.receive direction pkt key) := by
      rintro ⟨i, hi, -⟩
      rw [hfree] at hi
      cases hi
    split at h
    case isFalse =>
      cases h
      exact ⟨hall, iff_of_true hm hnone⟩
    case isTrue =>
      cases h
      obtain ⟨hall', hcons⟩ := consistent_newFlow P hall hm hfree direction _
      exact ⟨hall', iff_of_true hcons hnone⟩

/-- The queue and the contexts do not matter to the table. -/
theorem DdTableConsistent.congr (hm : DdTableConsistent m) (htable : m'.flowTable = m.flowTable)
    (hflows : m'.flows = m.flows) (hassert : m'.assertFailed = m.assertFailed) :
    DdTableConsistent m' := by
  obtain ⟨t, fs, q, c, a⟩ := m'
  subst htable hflows hassert
  exact ⟨hm.assertHolds, hm.owns, hm.closed⟩

/-- The destructor of an initial context marks the flow, and then hands it the packet. -/
theorem consistent_destroyContext_iff {c : Nat} (hall : AllKeysOk m) (hm : DdTableConsistent m)
    (h : m.destroyContext P c = some m') :
    AllKeysOk m' ∧ (DdTableConsistent m' ↔ ¬StepReachesOpenServer P m (.destroyContext c)) := by
  obtain ⟨item, hitem, h⟩ := Option.bind_eq_some_iff.mp h
  obtain ⟨m₂, h₂, h₃⟩ := Option.bind_eq_some_iff.mp h
  have hm₁ : DdTableConsistent { m with contexts := m.contexts.eraseIdx c } := hm.congr rfl rfl rfl
  have hall₁ : AllKeysOk { m with contexts := m.contexts.eraseIdx c } := hall
  obtain ⟨hall₂, hiff₂⟩ := consistent_callFlow_iff P hall₁ hm₁ h₂
  have hm₂ : DdTableConsistent m₂ := by
    refine hiff₂.mpr ?_
    rintro ⟨f, -, hpkt, -⟩
    cases hpkt
  obtain ⟨hall₃, hiff₃⟩ := consistent_callFlow_iff P hall₂ hm₂ h₃
  refine ⟨hall₃, hiff₃.trans (not_congr ?_)⟩
  obtain ⟨f, hf, hmark⟩ := Option.bind_eq_some_iff.mp h₂
  cases hmark
  have hflows : ∀ g, (AsyncFlowManager.commit { m with contexts := m.contexts.eraseIdx c }
      item.implPtr f f.destroyInitialContext).flows[item.implPtr]? = some g ↔
        f.destroyInitialContext = g := by
    intro g
    rw [AsyncFlowManager.commit, flows_foldl_applyEffect,
      List.getElem?_set_self (List.getElem?_eq_some_iff.mp hf).1, Option.some.injEq]
  have hf' : m.flows[item.implPtr]? = some f := hf
  simp [CallReachesOpenServer, StepReachesOpenServer, hflows, hitem, hf']

/-- A step keeps the table consistent exactly if it passes no packet of a client side on to an open
server work unit. -/
theorem consistent_step_iff {l : AsyncFlowManager.Label π κ} (hall : AllKeysOk m)
    (hm : DdTableConsistent m) (h : m.step P cfg l = some m') :
    AllKeysOk m' ∧ (DdTableConsistent m' ↔ ¬StepReachesOpenServer P m l) := by
  cases l with
  | receive direction pkt key => exact consistent_receive_iff P hall hm h
  | getInitialContext =>
    rw [AsyncFlowManager.step, AsyncFlowManager.getInitialContext] at h
    split at h
    · cases h
    · cases h
      exact ⟨hall, iff_of_true (hm.congr rfl rfl rfl) id⟩
  | destroyContext c => exact consistent_destroyContext_iff P hall hm h
  | passiveClose | register | unregister | runLoop | loopDone | callLoop | goOn =>
    exact consistent_callFlow_iff P hall hm h

/-- A new manager has no flows and no entries. -/
theorem ddTableConsistent_create :
    DdTableConsistent (AsyncFlowManager.create : AsyncFlowManager σ π κ) where
  assertHolds := rfl
  owns := by
    intro k i
    simp [AsyncFlowManager.create]
  closed := by
    intro i f hf
    simp [AsyncFlowManager.create] at hf

omit [DecidableEq κ] in
/-- A new manager has no flows. -/
theorem allKeysOk_create : AllKeysOk (AsyncFlowManager.create : AsyncFlowManager σ π κ) := by
  intro f hf
  simp [AsyncFlowManager.create] at hf

/-- In every state of a run the assertion holds and the table maps exactly the keys of the flows,
if and only if no step of the run passes a packet of a client side on to an open server work
unit. -/
theorem ddFlowTable_consistent_iff (cfg : AsyncFlowConfig)
    (ls : List (AsyncFlowManager.Label π κ)) :
    Always (AsyncFlowManager.step P cfg) DdTableConsistent .create ls ↔
      Guarded (AsyncFlowManager.step P cfg) (fun m l => ¬StepReachesOpenServer P m l) .create ls :=
  always_iff_guarded AllKeysOk
    (fun _ _ _ hall hm hstep => (consistent_step_iff P hall hm hstep).1)
    (fun _ _ _ hall hm hstep => (consistent_step_iff P hall hm hstep).2)
    allKeysOk_create ddTableConsistent_create ls

/-- Packet 5 creates a flow with key 7. When its initial context is destroyed, the packet reaches
the server work unit, and its reverse key 1005 gets an entry that no work unit knows. A second
packet of the flow inserts the same key, and the assertion fails. -/
theorem not_ddFlowTable_consistent :
    ∃ m m', run (AsyncFlowManager.step numberPpr ⟨10, 10⟩) .create
        [.receive 0 5 7, .getInitialContext, .destroyContext 0] = some m ∧
      m.flowTable.lookup 1005 = some 0 ∧ m.assertFailed = false ∧
      ¬Owns DdHasKey m.flowTable m.flows ∧
      m.step numberPpr ⟨10, 10⟩ (.receive 0 5 7) = some m' ∧ m'.assertFailed = true := by
  refine ⟨_, _, rfl, rfl, rfl, ?_, rfl, rfl⟩
  intro howns
  obtain ⟨f, hf, hkey⟩ := (howns 1005 0).mp rfl
  cases hf
  rcases hkey with hkey | hkey <;> cases hkey

end Netstar.Proofs.AsyncFlow
