import Mathlib.Data.List.AList
import Netstar.Spec.AsyncFlow.SdAsyncFlow

/-!
# `Netstar.Spec.AsyncFlow.SdAsyncFlowManager`: the manager of the single-direction flows

`sd_async_flow_manager` finds the flow of a packet in its flow table. A packet with an unknown key
creates a flow, which waits with that packet in `_new_ic_q` until the user takes its initial
context. The user gets handles of the flow from the context (`sd_async_flow`). When the user destroys
the initial context, the packet goes to the flow.

The manager of the model keeps every flow that was ever created, and it names a flow by its index. A
flow is alive as long as an `lw_shared_ptr` refers to it: the entry of the flow table, the item in
`_new_ic_q`, the initial context, or a handle (`useCount`). A handle cannot be copied and a
`std::function` can, so no loop function owns one. The timer of the preprocessor and the continuation
of a loop function have a plain `this`. The timer is destroyed with the flow. The continuation is not.

No call holds a reference of its own. When `remove_mapping_on_flow_table` erases the last one, the
flow is destroyed in the middle of its own function, which goes on to write `_client.flow_key`.
`useAfterFree` records that, and the completion of a loop function of a flow that was destroyed. What
comes after it is undefined, so the manager takes no step then.
-/

set_option autoImplicit false

namespace Netstar.Spec.AsyncFlow

/-- `sd_async_flow_manager`. `contexts` are the initial contexts that the user holds, and `handles` the
flows of the user's `sd_async_flow` objects. -/
structure SdAsyncFlowManager (σ π κ : Type) where
  flowTable : AList fun _ : κ => Nat
  flows : List (SdAsyncFlowImpl σ π κ)
  newIcQ : List (QueueItem π)
  contexts : List (QueueItem π)
  handles : List Nat
  useAfterFree : Bool

namespace SdAsyncFlowManager

variable {σ π κ : Type} [DecidableEq κ] (P : Ppr σ π κ) (cfg : AsyncFlowConfig)

/-- A new manager. -/
def create : SdAsyncFlowManager σ π κ := ⟨∅, [], [], [], [], false⟩

/-- `_flow_table.size()`. -/
def tableSize (m : SdAsyncFlowManager σ π κ) : Nat := m.flowTable.entries.length

/-- The references to flow `i` that are not in the flow table. -/
def outsideCount (m : SdAsyncFlowManager σ π κ) (i : Nat) : Nat :=
  m.newIcQ.countP (·.implPtr == i) + m.contexts.countP (·.implPtr == i) + m.handles.count i

/-- `use_count()` of the pointers to flow `i`. -/
def useCount (m : SdAsyncFlowManager σ π κ) (i : Nat) : Nat :=
  m.flowTable.entries.countP (·.2 == i) + m.outsideCount i

/-- `remove_mapping_on_flow_table`, called by flow `i`, which goes on after it. -/
def removeMapping (m : SdAsyncFlowManager σ π κ) (i : Nat) (key : κ) : SdAsyncFlowManager σ π κ :=
  let m := { m with flowTable := m.flowTable.erase key }
  { m with useAfterFree := m.useAfterFree || m.useCount i == 0 }

/-- What an effect of flow `i` does to the manager. -/
def applyEffect (i : Nat) (m : SdAsyncFlowManager σ π κ) : Effect π κ → SdAsyncFlowManager σ π κ
  | .removeMapping key => m.removeMapping i key
  | _ => m

/-- The manager after a call that turned flow `i` from `f` into `f'`. The effects that `f'` has in
addition are those of the call. -/
def commit (m : SdAsyncFlowManager σ π κ) (i : Nat) (f f' : SdAsyncFlowImpl σ π κ) :
    SdAsyncFlowManager σ π κ :=
  (f'.effects.drop f.effects.length).foldl (applyEffect i) { m with flows := m.flows.set i f' }

/-- A call on flow `i`. -/
def callFlow (m : SdAsyncFlowManager σ π κ) (i : Nat) (l : SdAsyncFlowImpl.Label π) :
    Option (SdAsyncFlowManager σ π κ) :=
  m.flows[i]?.bind fun f => (f.step P l).map fun f' => m.commit i f f'

/-- The callback that `receive_from_hookpoint` installs. -/
def receive (m : SdAsyncFlowManager σ π κ) (direction : Nat) (pkt : π) (key : κ) :
    Option (SdAsyncFlowManager σ π κ) :=
  match m.flowTable.lookup key with
  | none =>
    if m.newIcQ.length < cfg.newFlowQueueSize ∧ m.tableSize < cfg.maxFlowTableSize then
      some
        { m with
            flowTable := m.flowTable.insert key m.flows.length
            flows := m.flows ++ [.create P direction key]
            newIcQ := m.newIcQ ++ [⟨m.flows.length, pkt, direction⟩] }
    else some m
  | some i => m.callFlow P i (.packet pkt)

/-- `get_initial_context`, on a queue that is not empty. -/
def getInitialContext (m : SdAsyncFlowManager σ π κ) : Option (SdAsyncFlowManager σ π κ) :=
  match m.newIcQ with
  | [] => none
  | item :: q => some { m with newIcQ := q, contexts := m.contexts ++ [item] }

/-- `get_sd_async_flow` of the `c`-th initial context. -/
def getSdAsyncFlow (m : SdAsyncFlowManager σ π κ) (c : Nat) : Option (SdAsyncFlowManager σ π κ) :=
  m.contexts[c]?.map fun item => { m with handles := m.handles ++ [item.implPtr] }

/-- The destructor of the `c`-th initial context that the user holds. The context refers to its flow
until the calls are done. -/
def destroyContext (m : SdAsyncFlowManager σ π κ) (c : Nat) :
    Option (SdAsyncFlowManager σ π κ) :=
  m.contexts[c]?.bind fun item =>
    (m.callFlow P item.implPtr .destroyInitialContext).bind fun m =>
      (m.callFlow P item.implPtr (.packet item.pkt)).map fun m =>
        { m with contexts := m.contexts.eraseIdx c }

/-- The destructor of the `h`-th handle. -/
def destroyFlow (m : SdAsyncFlowManager σ π κ) (h : Nat) : Option (SdAsyncFlowManager σ π κ) :=
  m.handles[h]?.map fun _ => { m with handles := m.handles.eraseIdx h }

/-- The timer of the preprocessor of flow `i` fires. -/
def passiveClose (m : SdAsyncFlowManager σ π κ) (i : Nat) : Option (SdAsyncFlowManager σ π κ) :=
  if m.useCount i = 0 then none else m.callFlow P i .passiveClose

/-- A loop function of flow `i` completes. Its continuation runs on a flow that may be destroyed. -/
def loopDone (m : SdAsyncFlowManager σ π κ) (i : Nat) (result : LoopResult) :
    Option (SdAsyncFlowManager σ π κ) :=
  if m.useCount i = 0 then
    (m.callFlow P i (.loopDone result)).map fun _ => { m with useAfterFree := true }
  else m.callFlow P i (.loopDone result)

/-- What can happen to a manager and its flows. The user calls a flow through a handle. -/
inductive Label (π κ : Type) where
  | receive (direction : Nat) (pkt : π) (key : κ)
  | getInitialContext
  | getSdAsyncFlow (c : Nat)
  | destroyContext (c : Nat)
  | destroyFlow (h : Nat)
  | register (h : Nat) (ev : Nat)
  | unregister (h : Nat) (ev : Nat)
  | runLoop (h : Nat)
  | passiveClose (i : Nat)
  | loopDone (i : Nat) (result : LoopResult)
  deriving DecidableEq, Repr

/-- One step of a manager. -/
def step (m : SdAsyncFlowManager σ π κ) (l : Label π κ) : Option (SdAsyncFlowManager σ π κ) :=
  if m.useAfterFree then none
  else
    match l with
    | .receive direction pkt key => m.receive P cfg direction pkt key
    | .getInitialContext => m.getInitialContext
    | .getSdAsyncFlow c => m.getSdAsyncFlow c
    | .destroyContext c => m.destroyContext P c
    | .destroyFlow h => m.destroyFlow h
    | .register h ev => m.handles[h]?.bind fun i => m.callFlow P i (.register ev)
    | .unregister h ev => m.handles[h]?.bind fun i => m.callFlow P i (.unregister ev)
    | .runLoop h => m.handles[h]?.bind fun i => m.callFlow P i .runLoop
    | .passiveClose i => m.passiveClose P i
    | .loopDone i result => m.loopDone P i result

end SdAsyncFlowManager

end Netstar.Spec.AsyncFlow
