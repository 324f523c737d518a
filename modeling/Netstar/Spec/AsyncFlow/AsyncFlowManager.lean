import Mathlib.Data.List.AList
import Netstar.Spec.AsyncFlow.AsyncFlow

/-!
# `Netstar.Spec.AsyncFlow.AsyncFlowManager`: the manager of the double-direction flows

`async_flow_manager` works like the manager of the single-direction flows. In addition, a flow can
add a mapping for a second key. `add_new_mapping_to_flow_table` asserts that the key was not in the
table. This `assert` is the one of the C library and stays in the program, and `assertFailed`
records that it failed.

As for the single-direction flows, the manager keeps every flow that was ever created.
-/

set_option autoImplicit false

namespace Netstar.Spec.AsyncFlow

/-- `async_flow_manager`. `contexts` are the initial contexts that the user holds. -/
structure AsyncFlowManager (σ π κ : Type) where
  flowTable : AList fun _ : κ => Nat
  flows : List (AsyncFlowImpl σ π κ)
  newIcQ : List (QueueItem π)
  contexts : List (QueueItem π)
  assertFailed : Bool

namespace AsyncFlowManager

variable {σ π κ : Type} [DecidableEq κ] (P : Ppr σ π κ) (cfg : AsyncFlowConfig)

/-- A new manager. -/
def create : AsyncFlowManager σ π κ := ⟨∅, [], [], [], false⟩

/-- `_flow_table.size()`. -/
def tableSize (m : AsyncFlowManager σ π κ) : Nat := m.flowTable.entries.length

/-- `add_new_mapping_to_flow_table`. `unordered_map::insert` keeps the old entry of a key. -/
def addNewMappingToFlowTable (m : AsyncFlowManager σ π κ) (key : κ) (i : Nat) :
    AsyncFlowManager σ π κ :=
  match m.flowTable.lookup key with
  | none => { m with flowTable := m.flowTable.insert key i }
  | some _ => { m with assertFailed := true }

/-- `remove_mapping_on_flow_table`. -/
def removeMappingOnFlowTable (m : AsyncFlowManager σ π κ) (key : κ) : AsyncFlowManager σ π κ :=
  { m with flowTable := m.flowTable.erase key }

/-- The call that flow `i` makes to its manager. -/
def applyEffect (i : Nat) (m : AsyncFlowManager σ π κ) : Effect π κ → AsyncFlowManager σ π κ
  | .addMapping key => m.addNewMappingToFlowTable key i
  | .removeMapping key => m.removeMappingOnFlowTable key
  | _ => m

/-- The manager after a call that turned flow `i` from `f` into `f'`. The effects that `f'` has in
addition are those of the call. -/
def commit (m : AsyncFlowManager σ π κ) (i : Nat) (f f' : AsyncFlowImpl σ π κ) :
    AsyncFlowManager σ π κ :=
  (f'.effects.drop f.effects.length).foldl (applyEffect i) { m with flows := m.flows.set i f' }

/-- A call on flow `i`. -/
def callFlow (m : AsyncFlowManager σ π κ) (i : Nat) (l : AsyncFlowImpl.Label π) :
    Option (AsyncFlowManager σ π κ) :=
  m.flows[i]?.bind fun f => (f.step P l).map fun f' => m.commit i f f'

/-- The callback that `receive_from_hookpoint` installs. -/
def receive (m : AsyncFlowManager σ π κ) (direction : Nat) (pkt : π) (key : κ) :
    Option (AsyncFlowManager σ π κ) :=
  match m.flowTable.lookup key with
  | none =>
    if m.newIcQ.length < cfg.newFlowQueueSize ∧ m.tableSize < cfg.maxFlowTableSize then
      some
        { m with
            flowTable := m.flowTable.insert key m.flows.length
            flows := m.flows ++ [.create P direction key]
            newIcQ := m.newIcQ ++ [⟨m.flows.length, pkt, direction⟩] }
    else some m
  | some i => m.callFlow P i (.packet pkt direction)

/-- `get_initial_context`, on a queue that is not empty. -/
def getInitialContext (m : AsyncFlowManager σ π κ) : Option (AsyncFlowManager σ π κ) :=
  match m.newIcQ with
  | [] => none
  | item :: q => some { m with newIcQ := q, contexts := m.contexts ++ [item] }

/-- The destructor of the `c`-th initial context that the user holds. -/
def destroyContext (m : AsyncFlowManager σ π κ) (c : Nat) : Option (AsyncFlowManager σ π κ) :=
  m.contexts[c]?.bind fun item =>
    ({ m with contexts := m.contexts.eraseIdx c }.callFlow P item.implPtr
      .destroyInitialContext).bind fun m =>
        m.callFlow P item.implPtr (.packet item.pkt item.direction)

/-- What can happen to a manager and its flows. A packet and the end of an initial context reach a
flow through the manager only. -/
inductive Label (π κ : Type) where
  | receive (direction : Nat) (pkt : π) (key : κ)
  | getInitialContext
  | destroyContext (c : Nat)
  | passiveClose (i : Nat) (isClient : Bool)
  | register (i : Nat) (isClient isSend : Bool) (ev : Nat)
  | unregister (i : Nat) (isClient isSend : Bool) (ev : Nat)
  | runLoop (i : Nat) (isClient : Bool)
  | loopDone (i : Nat) (isClient : Bool) (result : LoopResult)
  | callLoop (i : Nat) (result : Option LoopResult)
  | goOn (i : Nat)
  deriving DecidableEq, Repr

/-- One step of a manager. -/
def step (m : AsyncFlowManager σ π κ) : Label π κ → Option (AsyncFlowManager σ π κ)
  | .receive direction pkt key => m.receive P cfg direction pkt key
  | .getInitialContext => m.getInitialContext
  | .destroyContext c => m.destroyContext P c
  | .passiveClose i isClient => m.callFlow P i (.passiveClose isClient)
  | .register i isClient isSend ev => m.callFlow P i (.register isClient isSend ev)
  | .unregister i isClient isSend ev => m.callFlow P i (.unregister isClient isSend ev)
  | .runLoop i isClient => m.callFlow P i (.runLoop isClient)
  | .loopDone i isClient result => m.callFlow P i (.loopDone isClient result)
  | .callLoop i result => m.callFlow P i (.callLoop result)
  | .goOn i => m.callFlow P i .goOn

end AsyncFlowManager

end Netstar.Spec.AsyncFlow
