import Netstar.Lib.LossyLine
import Netstar.Spec.AsyncFlow.AsyncFlow

/-!
# `Netstar.Proofs.AsyncFlow.WorkUnits`: the two work units of a flow and their invariant

A packet that arrives at side `x` waits in the work unit of `x` as a packet to send, then in the
other work unit as a received packet, and then it goes out there. `ddLine f x` lists the packets
of side `x` from the end of this way to its start: what was sent out, what the other work unit
holds, and what the work unit of `x` holds.

`StackOk` is the invariant. A work unit without a frame on the stack uses its buffer only while it
has a context. A loop function that is called while the other work unit is in the middle of
forwarding runs on a work unit that holds nothing but the packet it was just handed (`Light`), so
what it does cannot reach back, and the stack has at most two frames.
-/

set_option autoImplicit false

namespace Netstar.Proofs.AsyncFlow

open Netstar.Lib
open Netstar.Spec.AsyncFlow
open Netstar.Spec.AsyncFlow.AsyncFlowImpl

variable {σ π κ : Type}

/-! ### The packets of a flow -/

/-- The packets sent out with direction `d`, in order. -/
def sentWith (d : Nat) (es : List (Effect π κ)) : List π :=
  es.filterMap fun
    | .send pkt d' => if d' = d then some pkt else none
    | _ => none

/-- The freed packets that arrived at the side `x`, in order. -/
def freedFrom (x : Bool) (es : List (Effect π κ)) : List π :=
  es.filterMap fun
    | .free pkt x' _ => if x' = x then some pkt else none
    | _ => none

/-- The packet of a context, if it is one to send (or to receive). -/
def contextHeld (c : Option (PacketContext π)) (isSend : Bool) : List π :=
  match c with
  | none => []
  | some c => if c.isSend = isSend then c.pkt.toList else []

/-- The packets of a buffer that are to send (or to receive). -/
def bufferHeld (q : List (BufferedPacket π)) (isSend : Bool) : List π :=
  q.flatMap fun b => if b.isSend = isSend then b.pkt.toList else []

/-- The packets to send (or to receive) that a work unit holds. -/
def held (u : AfWorkUnit σ π κ) (isSend : Bool) : List π :=
  contextHeld u.curContext isSend ++ bufferHeld u.bufferQ isSend

/-- What a work unit has sent out, followed by the received packets that it holds. -/
def down (f : AsyncFlowImpl σ π κ) (y : Bool) : List π :=
  sentWith (f.getWorkUnit y).direction f.effects ++ held (f.getWorkUnit y) false

/-- The packets of side `x`, from the first one that was sent out to the last one that arrived. -/
def ddLine (f : AsyncFlowImpl σ π κ) (x : Bool) : List π :=
  down f (!x) ++ held (f.getWorkUnit x) true

/-- Effects are sent one after another. -/
@[simp] theorem sentWith_append (d : Nat) (es es' : List (Effect π κ)) :
    sentWith d (es ++ es') = sentWith d es ++ sentWith d es' :=
  List.filterMap_append

/-- Effects free packets one after another. -/
@[simp] theorem freedFrom_append (x : Bool) (es es' : List (Effect π κ)) :
    freedFrom x (es ++ es') = freedFrom x es ++ freedFrom x es' :=
  List.filterMap_append

/-- What a row of sends puts out with direction `d`. -/
@[simp] theorem sentWith_map_send (d d' : Nat) (pkts : List π) :
    sentWith d (pkts.map (Effect.send · d') : List (Effect π κ)) = if d' = d then pkts else [] := by
  split <;> simp_all [sentWith]

/-- Sending a packet does not free it. -/
@[simp] theorem freedFrom_map_send (x : Bool) (d : Nat) (pkts : List π) :
    freedFrom x (pkts.map (Effect.send · d) : List (Effect π κ)) = [] := by
  simp [freedFrom]

/-- Freeing a packet sends nothing. -/
@[simp] theorem sentWith_map_free (d : Nat) (x : Bool) (cause : FreeCause) (pkts : List π) :
    sentWith d (pkts.map (Effect.free · x cause) : List (Effect π κ)) = [] := by
  simp [sentWith]

/-- What a row of frees takes from side `x`. -/
@[simp] theorem freedFrom_map_free (x x' : Bool) (cause : FreeCause) (pkts : List π) :
    freedFrom x (pkts.map (Effect.free · x' cause) : List (Effect π κ)) =
      if x' = x then pkts else [] := by
  split <;> simp_all [freedFrom]

/-- A work unit without a context holds no packet there. -/
@[simp] theorem contextHeld_none (s : Bool) :
    contextHeld (none : Option (PacketContext π)) s = [] := rfl

/-- The null packet of a context is not held. -/
@[simp] theorem contextHeld_null (fe : FilteredEvents) (s s' : Bool) :
    contextHeld (some (⟨none, fe, s'⟩ : PacketContext π)) s = [] := by
  simp [contextHeld]

/-- An empty buffer holds nothing. -/
@[simp] theorem bufferHeld_nil (s : Bool) : bufferHeld ([] : List (BufferedPacket π)) s = [] := rfl

/-- The front of a buffer comes first. -/
@[simp] theorem bufferHeld_cons (b : BufferedPacket π) (q : List (BufferedPacket π)) (s : Bool) :
    bufferHeld (b :: q) s = (if b.isSend = s then b.pkt.toList else []) ++ bufferHeld q s := by
  simp [bufferHeld]

/-- A buffer is held in order. -/
@[simp] theorem bufferHeld_append (q q' : List (BufferedPacket π)) (s : Bool) :
    bufferHeld (q ++ q') s = bufferHeld q s ++ bufferHeld q' s := by
  simp [bufferHeld]

/-! ### The fields of a flow -/

section Fields

variable (f : AsyncFlowImpl σ π κ) (x : Bool) (u : AfWorkUnit σ π κ) (es : List (Effect π κ))
  (stack : List Frame)

/-- The work unit that was set. -/
@[simp] theorem getWorkUnit_setWorkUnit : (f.setWorkUnit x u).getWorkUnit x = u := by
  cases x <;> rfl

/-- The other work unit stays as it is. -/
@[simp] theorem getWorkUnit_setWorkUnit_not :
    (f.setWorkUnit x u).getWorkUnit (!x) = f.getWorkUnit (!x) := by
  cases x <;> rfl

/-- A new work unit is no effect. -/
@[simp] theorem effects_setWorkUnit : (f.setWorkUnit x u).effects = f.effects := by
  cases x <;> rfl

/-- A new work unit does not call anything. -/
@[simp] theorem stack_setWorkUnit : (f.setWorkUnit x u).stack = f.stack := by
  cases x <;> rfl

/-- A new work unit completes no loop function. -/
@[simp] theorem pendingLoops_setWorkUnit : (f.setWorkUnit x u).pendingLoops = f.pendingLoops := by
  cases x <;> rfl

/-- Effects do not touch the work units. -/
@[simp] theorem getWorkUnit_emit (y : Bool) : (f.emit es).getWorkUnit y = f.getWorkUnit y := rfl

/-- New effects come after the old ones. -/
@[simp] theorem effects_emit : (f.emit es).effects = f.effects ++ es := rfl

/-- Effects do not touch the stack. -/
@[simp] theorem stack_emit : (f.emit es).stack = f.stack := rfl

/-- Effects complete no loop function. -/
@[simp] theorem pendingLoops_emit : (f.emit es).pendingLoops = f.pendingLoops := rfl

/-- The stack is apart from the work units. -/
@[simp] theorem getWorkUnit_setStack (y : Bool) :
    (f.setStack stack).getWorkUnit y = f.getWorkUnit y := rfl

/-- A new stack is no effect. -/
@[simp] theorem effects_setStack : (f.setStack stack).effects = f.effects := rfl

/-- The stack that was set. -/
@[simp] theorem stack_setStack : (f.setStack stack).stack = stack := rfl

/-- The stack is apart from the pending calls. -/
@[simp] theorem pendingLoops_setStack : (f.setStack stack).pendingLoops = f.pendingLoops := rfl

/-- The pending calls are apart from the work units. -/
@[simp] theorem getWorkUnit_setPendingLoops (n : Nat) (y : Bool) :
    (f.setPendingLoops x n).getWorkUnit y = f.getWorkUnit y := rfl

/-- The number of pending calls that was set. -/
@[simp] theorem pendingLoops_setPendingLoops (n : Nat) :
    (f.setPendingLoops x n).pendingLoops x = n := by
  simp [setPendingLoops]

/-- The other work unit keeps its pending calls. -/
@[simp] theorem pendingLoops_setPendingLoops_not (n : Nat) :
    (f.setPendingLoops x n).pendingLoops (!x) = f.pendingLoops (!x) := by
  simp [setPendingLoops]

/-- The pending calls are apart from the stack. -/
@[simp] theorem stack_setPendingLoops (n : Nat) : (f.setPendingLoops x n).stack = f.stack := rfl

end Fields

/-- The two sides. -/
theorem forall_side {Q : Bool → Prop} (x : Bool) (hx : Q x) (hy : Q (!x)) : ∀ z, Q z := by
  intro z
  cases x <;> cases z <;> assumption

/-! ### Preprocessing -/

/-- `f'` is `f` after some preprocessing by the work unit of `x`. -/
structure Quiet (x : Bool) (f f' : AsyncFlowImpl σ π κ) : Prop where
  other : f'.getWorkUnit (!x) = f.getWorkUnit (!x)
  curContext : (f'.getWorkUnit x).curContext = (f.getWorkUnit x).curContext
  bufferQ : (f'.getWorkUnit x).bufferQ = (f.getWorkUnit x).bufferQ
  loopFn : (f'.getWorkUnit x).loopFn = (f.getWorkUnit x).loopFn
  direction : (f'.getWorkUnit x).direction = (f.getWorkUnit x).direction
  pendingLoops : f'.pendingLoops = f.pendingLoops
  stack : f'.stack = f.stack
  sent : ∀ d, sentWith d f'.effects = sentWith d f.effects
  freed : ∀ z, freedFrom z f'.effects = freedFrom z f.effects

/-- Doing nothing is quiet. -/
theorem Quiet.refl (x : Bool) (f : AsyncFlowImpl σ π κ) : Quiet x f f :=
  ⟨rfl, rfl, rfl, rfl, rfl, rfl, rfl, fun _ => rfl, fun _ => rfl⟩

/-- Two quiet parts of a call make a quiet one. -/
theorem Quiet.trans {x : Bool} {f g h : AsyncFlowImpl σ π κ} (hfg : Quiet x f g)
    (hgh : Quiet x g h) : Quiet x f h where
  other := hgh.other.trans hfg.other
  curContext := hgh.curContext.trans hfg.curContext
  bufferQ := hgh.bufferQ.trans hfg.bufferQ
  loopFn := hgh.loopFn.trans hfg.loopFn
  direction := hgh.direction.trans hfg.direction
  pendingLoops := hgh.pendingLoops.trans hfg.pendingLoops
  stack := hgh.stack.trans hfg.stack
  sent := fun d => (hgh.sent d).trans (hfg.sent d)
  freed := fun z => (hgh.freed z).trans (hfg.freed z)

/-- A close sends and frees no packet. -/
theorem quiet_closePprAndRemoveFlowKey (f : AsyncFlowImpl σ π κ) (x : Bool) :
    Quiet x f (f.closePprAndRemoveFlowKey x) := by
  unfold closePprAndRemoveFlowKey
  cases (f.getWorkUnit x).flowKey <;> constructor <;> simp [sentWith, freedFrom]

variable (P : Ppr σ π κ)

/-- The reverse key only reaches the flow table. -/
theorem quiet_addReverseMapping (f : AsyncFlowImpl σ π κ) (pkt : RtePacket π) (x : Bool) :
    Quiet x f (f.addReverseMapping P pkt x) := by
  unfold addReverseMapping
  dsimp only
  split
  · constructor <;> simp [sentWith, freedFrom]
  · exact .refl x f

/-- The preprocessor has its own state. -/
theorem quiet_callPpr (f : AsyncFlowImpl σ π κ) (x : Bool) (pkt : RtePacket π) (s : Bool) :
    Quiet x f (f.callPpr P x pkt s).1 := by
  unfold callPpr
  constructor <;> simp

/-- Preprocessing leaves the packets where they are. -/
theorem quiet_preprocessPacket (f : AsyncFlowImpl σ π κ) (x : Bool) (pkt : RtePacket π)
    (s : Bool) : Quiet x f (f.preprocessPacket P x pkt s).1 := by
  unfold preprocessPacket
  dsimp only
  have hcall := quiet_callPpr P f x pkt s
  split
  · split
    · exact hcall.trans (quiet_closePprAndRemoveFlowKey _ x)
    · exact hcall
  · split
    · exact hcall.trans (quiet_closePprAndRemoveFlowKey _ x)
    · exact hcall

/-- The preprocessing part of `preprocess_and_forward`. What it forwards is handed on by its
callers. -/
theorem quiet_preprocessAndForward (f : AsyncFlowImpl σ π κ) (x : Bool) (pkt : RtePacket π)
    (s : Bool) : Quiet x f (f.preprocessAndForward P x pkt s) := by
  unfold preprocessAndForward
  dsimp only
  have hcall := quiet_callPpr P f x pkt s
  split
  · exact hcall.trans (quiet_closePprAndRemoveFlowKey _ x)
  · exact hcall

/-! ### The invariant -/

/-- A work unit with `n` pending calls of its loop function, whose frame is at `pos`, or that has
no frame. -/
def UnitOk (u : AfWorkUnit σ π κ) (n : Nat) : Option Position → Prop
  | none =>
    (n = if u.curContext.isSome then 1 else 0) ∧ (u.curContext.isSome → u.loopFn = true) ∧
      (u.curContext = none → u.bufferQ = [])
  | some .invoke => n = 0 ∧ u.curContext.isSome
  | some (.afterForward _) => n = 0 ∧ ∃ c, u.curContext = some c ∧ c.pkt = none
  | some .drain | some .closeDrain => n = 0 ∧ u.curContext = none
  | some .drainPop | some .closePop =>
    n = 0 ∧ u.curContext = none ∧ ∃ b q, u.bufferQ = b :: q ∧ b.pkt = none

/-- The work unit holds no packet to send, and nothing in its buffer. -/
def Light (u : AfWorkUnit σ π κ) : Prop := u.bufferQ = [] ∧ contextHeld u.curContext true = []

/-- The positions at which another work unit can be running on top. -/
def Suspended : Position → Prop
  | .afterForward _ | .drainPop | .closePop => True
  | _ => False

/-- What stands below a frame of `x`. -/
def RestOk (f : AsyncFlowImpl σ π κ) (x : Bool) : List Frame → Prop
  | [] => UnitOk (f.getWorkUnit (!x)) (f.pendingLoops (!x)) none
  | [F] =>
    F.isClient = (!x) ∧ Suspended F.pos ∧
      UnitOk (f.getWorkUnit (!x)) (f.pendingLoops (!x)) (some F.pos) ∧ Light (f.getWorkUnit x)
  | _ => False

/-- The invariant of the two work units and the stack. -/
def StackOk (f : AsyncFlowImpl σ π κ) : Prop :=
  match f.stack with
  | [] => ∀ x, UnitOk (f.getWorkUnit x) (f.pendingLoops x) none
  | F :: rest =>
    UnitOk (f.getWorkUnit F.isClient) (f.pendingLoops F.isClient) (some F.pos) ∧
      RestOk f F.isClient rest

/-- A frame of `x` returns. -/
theorem stackOk_return {f : AsyncFlowImpl σ π κ} {x : Bool}
    (hx : UnitOk (f.getWorkUnit x) (f.pendingLoops x) none) (hrest : RestOk f x f.stack) :
    StackOk f := by
  unfold StackOk
  cases hstack : f.stack with
  | nil =>
    rw [hstack] at hrest
    exact forall_side x hx hrest
  | cons F rest =>
    rw [hstack] at hrest
    cases rest with
    | cons F' rest => exact hrest.elim
    | nil =>
      obtain ⟨hside, -, hunit, -⟩ := hrest
      dsimp only
      rw [hside]
      refine ⟨hunit, ?_⟩
      rw [RestOk, Bool.not_not]
      exact hx

/-- A frame of `x` goes on top of the stack. -/
theorem stackOk_cons {f : AsyncFlowImpl σ π κ} {x : Bool} {pos : Position} {rest : List Frame}
    (hstack : f.stack = ⟨x, pos⟩ :: rest)
    (hx : UnitOk (f.getWorkUnit x) (f.pendingLoops x) (some pos)) (hrest : RestOk f x rest) :
    StackOk f := by
  unfold StackOk
  rw [hstack]
  exact ⟨hx, hrest⟩

/-- `RestOk` only looks at the work units and at the pending calls. -/
theorem RestOk.congr {f f' : AsyncFlowImpl σ π κ} {x : Bool} {rest : List Frame}
    (h : RestOk f x rest) (hother : f'.getWorkUnit (!x) = f.getWorkUnit (!x))
    (hpending : f'.pendingLoops (!x) = f.pendingLoops (!x))
    (hlight : Light (f.getWorkUnit x) → Light (f'.getWorkUnit x)) : RestOk f' x rest := by
  cases rest with
  | nil =>
    rw [RestOk, hother, hpending]
    exact h
  | cons F rest =>
    cases rest with
    | cons F' rest => exact h.elim
    | nil =>
      obtain ⟨hside, hsusp, hunit, hl⟩ := h
      refine ⟨hside, hsusp, ?_, hlight hl⟩
      rw [hother, hpending]
      exact hunit

end Netstar.Proofs.AsyncFlow
