import Mathlib.Algebra.Order.Ring.Int
import Mathlib.Logic.Function.Basic

/-!
# `Netstar.Spec.AhoCorasick.Aho`: the matcher of `netstar/aho-corasick/aho.h`

`aho_init`, `aho_add_pattern`, `aho_build_ff` and `aho_preprocess_dfa` build the state table of an
Aho-Corasick matcher, with the linked queues of `ds_queue.h`.

The state table is an array of `AHO_MAX_STATES` states. The model is a function of the index, and
`AhoDfa.get` and `AhoDfa.modify` fail outside the array. `AHO_FAIL` lies outside, so a walk that
follows a missing transition fails too. `malloc` does not initialize the table. `aho_init` sets
every field but `out_arr`, whose first content is a parameter.

The `while` loops take fuel and fail without it. A run that returns a table is a run whose loops
have terminated and whose assertions hold.
-/

set_option autoImplicit false

namespace Netstar.Spec.AhoCorasick

/-- `AHO_MAX_STATES`. -/
def ahoMaxStates : Nat := 32768

/-- `AHO_FAIL`. -/
def ahoFail : Nat := 65535

/-- The longest pattern that `aho_add_pattern` accepts. -/
def ahoMaxLength : Nat := 100000

/-- The number of outputs that a state must stay below. -/
def ahoMaxOutputs : Nat := 16

/-- The indices `0, ..., AHO_ALPHA_SIZE - 1`. -/
def alphabet : List UInt8 := (List.range 256).map UInt8.ofNat

/-- How a run can go wrong. -/
inductive Fault where
  /-- An `assert` fails. -/
  | assertion
  /-- An access outside the state table. -/
  | outOfBounds
  /-- A loop has not terminated yet. -/
  | outOfFuel
  deriving DecidableEq, Repr

/-- `assert`. -/
def check (b : Bool) : Except Fault Unit := if b then .ok () else .error .assertion

/-- `ds_queue`: the nodes from `head` on, and the counter. -/
structure DsQueue where
  nodes : List Nat
  count : Nat
  count_eq : count = nodes.length

namespace DsQueue

/-- `ds_queue_init`. -/
def init : DsQueue := ⟨[], 0, rfl⟩

/-- `ds_queue_add`. -/
def add (q : DsQueue) (data : Nat) : DsQueue :=
  ⟨q.nodes ++ [data], q.count + 1, by simp [q.count_eq]⟩

/-- `ds_queue_remove`. The second assertion holds by `count_eq`. -/
def remove (q : DsQueue) : Except Fault (Nat × DsQueue) :=
  match q with
  | ⟨[], _, _⟩ => .error .assertion
  | ⟨data :: nodes, count, h⟩ => .ok (data, ⟨nodes, count - 1, by simp [h]⟩)

/-- `ds_queue_is_empty`. -/
def isEmpty (q : DsQueue) : Bool := q.count == 0

end DsQueue

/-- `aho_state`. -/
structure AhoState where
  g : UInt8 → Nat
  f : Nat
  output : DsQueue
  outArr : Nat → Nat

/-- `aho_dfa`. -/
structure AhoDfa where
  numUsedStates : Nat
  root : Nat → AhoState

/-- The conversion to `uint16_t`. -/
def toU16 (n : Nat) : Nat := n % 2 ^ 16

namespace AhoDfa

/-- A read of `st_arr[state]`. -/
def get (d : AhoDfa) (state : Nat) : Except Fault AhoState :=
  if state < ahoMaxStates then .ok (d.root state) else .error .outOfBounds

/-- A write to `st_arr[state]`. -/
def modify (d : AhoDfa) (state : Nat) (u : AhoState → AhoState) : Except Fault AhoDfa :=
  if state < ahoMaxStates then
    .ok { d with root := Function.update d.root state (u (d.root state)) }
  else .error .outOfBounds

end AhoDfa

/-- `aho_init`. `memset` with the low byte of `AHO_FAIL` sets every `G` entry to `AHO_FAIL`. -/
def ahoInit (uninit : Nat → Nat → Nat) : AhoDfa where
  numUsedStates := 0
  root state := ⟨fun _ => ahoFail, ahoFail, .init, uninit state⟩

/-- The first loop of `aho_add_pattern`: the state after the longest prefix of the pattern that is
already there, and the rest of the pattern. -/
def walk (d : AhoDfa) (state : Nat) : List UInt8 → Except Fault (Nat × List UInt8)
  | [] => .ok (state, [])
  | c :: content => do
    let next := (← d.get state).g c
    if next = ahoFail then return (state, c :: content) else walk d next content

/-- The second loop of `aho_add_pattern`: new states for the rest of the pattern. -/
def extend (d : AhoDfa) (state : Nat) : List UInt8 → Except Fault (AhoDfa × Nat)
  | [] => .ok (d, state)
  | c :: content => do
    let new := d.numUsedStates + 1
    check (new ≤ ahoMaxStates - 2)
    let d ← { d with numUsedStates := new }.modify state fun st =>
      { st with g := Function.update st.g c (toU16 new) }
    extend d new content

/-- `aho_add_pattern`. -/
def ahoAddPattern (d : AhoDfa) (pattern : List UInt8) (index : Nat) : Except Fault AhoDfa := do
  check (pattern.length ≤ ahoMaxLength)
  let (state, content) ← walk d 0 pattern
  let (d, state) ← extend d state content
  check (state ≠ 0)
  d.modify state fun st => { st with output := st.output.add index }

/-- The loop `while(st_arr[state].G[i] == AHO_FAIL)` that follows the failure function, in
`aho_build_ff` and in `aho_preprocess_dfa`. -/
def followFailures (d : AhoDfa) (c : UInt8) : Nat → Nat → Except Fault Nat
  | fuel, state => do
    let st ← d.get state
    if st.g c ≠ ahoFail then return state
    match fuel with
    | 0 => .error .outOfFuel
    | fuel + 1 => followFailures d c fuel st.f

/-- The loop of `aho_build_ff` over the output queue of `source`, from node `j` on. It reads the
node after the previous one was added to `target`. -/
def inheritOutputs (source target : Nat) : Nat → AhoDfa → Nat → Except Fault AhoDfa
  | fuel, d, j => do
    match (← d.get source).output.nodes[j]? with
    | none => return d
    | some data =>
      match fuel with
      | 0 => .error .outOfFuel
      | fuel + 1 =>
        let d ← d.modify target fun st => { st with output := st.output.add data }
        inheritOutputs source target fuel d (j + 1)

/-- The first loop of `aho_build_ff`. -/
def loopBack (d : AhoDfa) : Except Fault AhoDfa :=
  d.modify 0 fun st => { st with g := fun c => if st.g c = ahoFail then 0 else st.g c }

/-- The second loop of `aho_build_ff`, over the given characters. -/
def initChildren (d : AhoDfa) (queue : DsQueue) : List UInt8 → Except Fault (AhoDfa × DsQueue)
  | [] => .ok (d, queue)
  | c :: cs => do
    let next := (← d.get 0).g c
    if next ≠ 0 then
      let d ← d.modify next fun st => { st with f := 0 }
      initChildren d (queue.add next) cs
    else initChildren d queue cs

/-- The loop of `aho_build_ff` over the children of `cur`, for the given characters. -/
def linkChildren (fuel cur : Nat) (d : AhoDfa) (queue : DsQueue) :
    List UInt8 → Except Fault (AhoDfa × DsQueue)
  | [] => .ok (d, queue)
  | c :: cs => do
    let st ← d.get cur
    let child := st.g c
    if child ≠ ahoFail then
      let best ← followFailures d c fuel st.f
      -- The failure state of a child is the transition of the state where the chain ends.
      let childFail := (← d.get best).g c
      let d ← d.modify child fun st => { st with f := childFail }
      let d ← inheritOutputs childFail child fuel d 0
      linkChildren fuel cur d (queue.add child) cs
    else linkChildren fuel cur d queue cs

/-- The `while` loop of `aho_build_ff`. The first argument is the fuel of the inner loops. -/
def traverse (inner : Nat) : Nat → AhoDfa → DsQueue → Except Fault AhoDfa
  | fuel, d, queue => do
    if queue.isEmpty then return d
    match fuel with
    | 0 => .error .outOfFuel
    | fuel + 1 =>
      let (cur, queue) ← queue.remove
      let (d, queue) ← linkChildren inner cur d queue alphabet
      traverse inner fuel d queue

/-- `aho_build_ff`. -/
def ahoBuildFf (fuel : Nat) (d : AhoDfa) : Except Fault AhoDfa := do
  let d ← loopBack d
  let (d, queue) ← initChildren d .init alphabet
  traverse fuel fuel d queue

/-- The loop of `aho_preprocess_dfa` that copies `count` outputs from the queue to the array, from
entry `j` on. -/
def copyOutputs (outArr : Nat → Nat) (j : Nat) :
    (count : Nat) → List Nat → Except Fault (Nat → Nat)
  | 0, _ => .ok outArr
  | _ + 1, [] => .error .assertion
  | count + 1, data :: nodes =>
    copyOutputs (Function.update outArr j (toU16 data)) (j + 1) count nodes

/-- The loop of `aho_preprocess_dfa` over the transitions of state `i`, for the given
characters. -/
def completeState (fuel i : Nat) (d : AhoDfa) : List UInt8 → Except Fault AhoDfa
  | [] => .ok d
  | c :: cs => do
    if (← d.get i).g c ≠ ahoFail then completeState fuel i d cs
    else
      let state ← followFailures d c fuel i
      let next := (← d.get state).g c
      let d ← d.modify i fun st => { st with g := Function.update st.g c (toU16 next) }
      completeState fuel i d cs

/-- The loop of `aho_preprocess_dfa` over the given states. -/
def preprocessStates (fuel : Nat) (d : AhoDfa) : List Nat → Except Fault AhoDfa
  | [] => .ok d
  | i :: states => do
    let st ← d.get i
    check (st.output.count < ahoMaxOutputs)
    let outArr ← copyOutputs st.outArr 0 st.output.count st.output.nodes
    let d ← d.modify i fun st => { st with outArr := outArr }
    let d ← completeState fuel i d alphabet
    preprocessStates fuel d states

/-- `aho_preprocess_dfa`. -/
def ahoPreprocessDfa (fuel : Nat) (d : AhoDfa) : Except Fault AhoDfa :=
  preprocessStates fuel d (List.range (d.numUsedStates + 1))

/-- `aho_add_pattern` for each pattern, with its position in the list as the index. -/
def addPatterns (d : AhoDfa) : Nat → List (List UInt8) → Except Fault AhoDfa
  | _, [] => .ok d
  | index, pattern :: patterns => do
    let d ← ahoAddPattern d pattern index
    addPatterns d (index + 1) patterns

/-- The whole construction. -/
def ahoBuild (fuel : Nat) (uninit : Nat → Nat → Nat) (patterns : List (List UInt8)) :
    Except Fault AhoDfa := do
  let d ← addPatterns (ahoInit uninit) 0 patterns
  let d ← ahoBuildFf fuel d
  ahoPreprocessDfa fuel d

namespace AhoDfa

/-- The state that the text reaches from state 0 through `G`. -/
def run (d : AhoDfa) (text : List UInt8) : Nat := text.foldl (fun state c => (d.root state).g c) 0

/-- `out_arr[0..output.count)` of a state. -/
def outputs (d : AhoDfa) (state : Nat) : List Nat :=
  (List.range (d.root state).output.count).map (d.root state).outArr

end AhoDfa

end Netstar.Spec.AhoCorasick
