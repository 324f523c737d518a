import Netstar.Spec.AhoCorasick.Aho

/-!
# `Netstar.Spec.AhoCorasick.HttpIds`: the scan of `tests/netstar/http_ids.cc`

The intrusion detection runs the payload of each packet of a flow through the matcher. `BATCH_SIZE` is
1, so `process_batch` scans one payload. The flow keeps the state for the next payload. `mpList` is
the part of `ptrn_id` that is in use.
-/

set_option autoImplicit false

namespace Netstar.Spec.AhoCorasick

/-- `ips_flow_state`. Its `_dfa_id` picks the table that `process_batch` gets here. -/
structure IpsFlowState where
  state : Nat
  alert : Bool
  deriving DecidableEq, Repr

/-- `init_automataState`. -/
def initAutomataState : IpsFlowState := ⟨0, false⟩

/-- The loop of `process_batch` over the bytes of a payload: the state in which it ends, and the
outputs of this state if the loop returns early. -/
def scanPayload (d : AhoDfa) : Nat → List UInt8 → Except Fault (Nat × Option (List Nat))
  | state, [] => .ok (state, none)
  | state, inp :: content => do
    let st ← d.get state
    if st.output.count ≠ 0 then return (state, some (d.outputs state))
    scanPayload d (st.g inp) content

/-- `process_batch`. -/
def processBatch (d : AhoDfa) (content : List UInt8) (ipsState : IpsFlowState)
    (mpList : List Nat) : Except Fault (IpsFlowState × List Nat) :=
  if d.numUsedStates ≤ ipsState.state then .ok ({ ipsState with alert := false }, mpList)
  else do
    let (state, ids) ← scanPayload d ipsState.state content
    match ids with
    | some ids => return (⟨state, true⟩, mpList ++ ids)
    | none => return ({ ipsState with state := state }, mpList)

end Netstar.Spec.AhoCorasick
