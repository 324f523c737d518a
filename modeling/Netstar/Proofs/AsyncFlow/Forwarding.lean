import Netstar.Proofs.AsyncFlow.WorkUnits

/-!
# `Netstar.Proofs.AsyncFlow.Forwarding`: a packet enters and leaves a work unit

`Takes` and `Received` describe a work unit that gets a packet, and `MovedOut` describes one that
gives its first packet away. The lemmas of `MovedOut` cover the places where the source calls
`internal_packet_forward`: the post handler and the two loops over the buffer. `StepOk` collects
what each step has to show.
-/

set_option autoImplicit false

namespace Netstar.Proofs.AsyncFlow

open Netstar.Lib
open Netstar.Spec.AsyncFlow
open Netstar.Spec.AsyncFlow.AsyncFlowImpl

variable {σ π κ : Type}

variable (P : Ppr σ π κ)

/-! ### A packet enters a work unit -/

/-- What a call leaves on the stack: nothing, or the call of the loop function of `x` on a work
unit that holds only the packet for it. -/
def EntersStack (x s : Bool) (f f' : AsyncFlowImpl σ π κ) : Prop :=
  (f'.stack = f.stack ∧ UnitOk (f'.getWorkUnit x) (f'.pendingLoops x) none) ∨
    (f'.stack = ⟨x, .invoke⟩ :: f.stack ∧
      UnitOk (f'.getWorkUnit x) (f'.pendingLoops x) (some .invoke) ∧
      (f'.getWorkUnit x).bufferQ = [] ∧ contextHeld (f'.getWorkUnit x).curContext (!s) = [])

/-- The work unit of `x` took the packet `pkt` into its context or into its buffer. -/
structure Takes (x s : Bool) (pkt : RtePacket π) (f f' : AsyncFlowImpl σ π κ) : Prop where
  other : f'.getWorkUnit (!x) = f.getWorkUnit (!x)
  direction : (f'.getWorkUnit x).direction = (f.getWorkUnit x).direction
  pendingLoops : f'.pendingLoops = f.pendingLoops
  sent : ∀ d, sentWith d f'.effects = sentWith d f.effects
  freed : ∀ z, freedFrom z f'.effects = freedFrom z f.effects
  same : held (f'.getWorkUnit x) s = held (f.getWorkUnit x) s ++ pkt.toList
  opposite : held (f'.getWorkUnit x) (!s) = held (f.getWorkUnit x) (!s)
  stack : EntersStack x s f f'

/-- The work unit of `x` has nothing, and it is done with preprocessing. -/
structure PassesOn (x : Bool) (f f' : AsyncFlowImpl σ π κ) : Prop where
  quiet : Quiet x f f'
  curContext : (f.getWorkUnit x).curContext = none
  bufferQ : (f.getWorkUnit x).bufferQ = []

/-- Preprocessing before a work unit takes a packet. -/
theorem Quiet.takes {x s : Bool} {pkt : RtePacket π} {f g h : AsyncFlowImpl σ π κ}
    (hfg : Quiet x f g) (hgh : Takes x s pkt g h) : Takes x s pkt f h where
  other := hgh.other.trans hfg.other
  direction := hgh.direction.trans hfg.direction
  pendingLoops := hgh.pendingLoops.trans hfg.pendingLoops
  sent := fun d => (hgh.sent d).trans (hfg.sent d)
  freed := fun z => (hgh.freed z).trans (hfg.freed z)
  same := by rw [hgh.same, held, held, hfg.curContext, hfg.bufferQ]
  opposite := by rw [hgh.opposite, held, held, hfg.curContext, hfg.bufferQ]
  stack := by
    have h := hgh.stack
    rw [EntersStack, hfg.stack] at h
    exact h

/-- A new context on a work unit that holds nothing. -/
theorem takes_startLoop {f : AsyncFlowImpl σ π κ} {x : Bool} (pkt : RtePacket π)
    (fe : FilteredEvents) (s : Bool) (hcontext : (f.getWorkUnit x).curContext = none)
    (hbuffer : (f.getWorkUnit x).bufferQ = []) (hpending : f.pendingLoops x = 0) :
    Takes x s pkt f (f.startLoop x ⟨pkt, fe, s⟩) := by
  unfold startLoop push
  constructor <;> simp [held, hcontext, hbuffer, EntersStack, UnitOk, contextHeld, hpending]

/-- A work unit takes the packet, or hands it back to be passed on. -/
theorem actionAfterPacketHandle_spec {f : AsyncFlowImpl σ π κ} {x : Bool}
    (hx : UnitOk (f.getWorkUnit x) (f.pendingLoops x) none) (pkt : RtePacket π) (s : Bool) :
    ((f.actionAfterPacketHandle P x pkt s).2 = none ∧
        Takes x s pkt f (f.actionAfterPacketHandle P x pkt s).1) ∨
      ((f.actionAfterPacketHandle P x pkt s).2 = some pkt ∧
        PassesOn x f (f.actionAfterPacketHandle P x pkt s).1) := by
  obtain ⟨hpending, hloop, hbuffer⟩ := hx
  unfold actionAfterPacketHandle
  dsimp only
  cases hcontext : (f.getWorkUnit x).curContext with
  | some c =>
    left
    rw [if_pos (hloop (by simp [hcontext]))]
    refine ⟨rfl, ?_⟩
    dsimp only
    constructor <;> simp [held, hcontext, EntersStack, UnitOk, hpending, hloop]
  | none =>
    rw [hcontext] at hpending hbuffer
    split
    case isTrue =>
      have hpre := quiet_preprocessPacket P f x pkt s
      dsimp only
      split
      · exact .inr ⟨rfl, hpre, hcontext, hbuffer rfl⟩
      · left
        refine ⟨rfl, hpre.takes (takes_startLoop pkt _ s ?_ ?_ ?_)⟩
        · rw [hpre.curContext, hcontext]
        · rw [hpre.bufferQ, hbuffer rfl]
        · rw [hpre.pendingLoops, hpending]
          rfl
    case isFalse =>
      exact .inr ⟨rfl, quiet_preprocessAndForward P f x pkt s, hcontext, hbuffer rfl⟩

/-- The two work units have different directions. -/
def Opposed (f : AsyncFlowImpl σ π κ) : Prop :=
  ∀ x, (f.getWorkUnit x).direction ≠ (f.getWorkUnit (!x)).direction

/-- The directions decide whether the work units are opposed. -/
theorem Opposed.of_direction {f f' : AsyncFlowImpl σ π κ} (hf : Opposed f) {x : Bool}
    (hx : (f'.getWorkUnit x).direction = (f.getWorkUnit x).direction)
    (hy : (f'.getWorkUnit (!x)).direction = (f.getWorkUnit (!x)).direction) : Opposed f' := by
  refine forall_side x ?_ ?_
  · rw [hx, hy]
    exact hf x
  · rw [Bool.not_not, hx, hy]
    exact (hf x).symm

/-- Preprocessing keeps the directions. -/
theorem Opposed.quiet {f g : AsyncFlowImpl σ π κ} (hf : Opposed f) {x : Bool}
    (h : Quiet x f g) : Opposed g :=
  hf.of_direction h.direction (by rw [h.other])

/-- Preprocessing keeps the invariant of the work unit. -/
theorem Quiet.unitOk {x : Bool} {f g : AsyncFlowImpl σ π κ} (h : Quiet x f g)
    {pos : Option Position} (hx : UnitOk (f.getWorkUnit x) (f.pendingLoops x) pos) :
    UnitOk (g.getWorkUnit x) (g.pendingLoops x) pos := by
  unfold UnitOk at hx ⊢
  rw [h.curContext, h.bufferQ, h.loopFn, h.pendingLoops]
  exact hx

/-- The work unit of `y` received the packet: it holds it, has sent it out, or has freed it. -/
structure Received (y : Bool) (pkt : RtePacket π) (f f' : AsyncFlowImpl σ π κ) : Prop where
  other : f'.getWorkUnit (!y) = f.getWorkUnit (!y)
  direction : (f'.getWorkUnit y).direction = (f.getWorkUnit y).direction
  pendingLoops : f'.pendingLoops = f.pendingLoops
  sentElsewhere : ∀ d, d ≠ (f.getWorkUnit y).direction →
    sentWith d f'.effects = sentWith d f.effects
  toSend : held (f'.getWorkUnit y) true = held (f.getWorkUnit y) true
  freedOwn : freedFrom y f'.effects = freedFrom y f.effects
  line : ∃ lost, LossyLine (down f y ++ pkt.toList) (down f' y) lost ∧
    freedFrom (!y) f'.effects = freedFrom (!y) f.effects ++ lost
  stack : EntersStack y false f f'

/-- A packet that the work unit takes was received. -/
theorem Takes.received {y : Bool} {pkt : RtePacket π} {f f' : AsyncFlowImpl σ π κ}
    (h : Takes y false pkt f f') : Received y pkt f f' where
  other := h.other
  direction := h.direction
  pendingLoops := h.pendingLoops
  sentElsewhere := fun d _ => h.sent d
  toSend := h.opposite
  freedOwn := h.freed y
  line := by
    refine ⟨[], ?_, by rw [h.freed, List.append_nil]⟩
    rw [down, down, h.direction, h.sent, h.same, List.append_assoc]
    exact .refl _
  stack := h.stack

/-- Preprocessing before a packet is received. -/
theorem Quiet.received {y : Bool} {pkt : RtePacket π} {f g h : AsyncFlowImpl σ π κ}
    (hfg : Quiet y f g) (hgh : Received y pkt g h) : Received y pkt f h where
  other := hgh.other.trans hfg.other
  direction := hgh.direction.trans hfg.direction
  pendingLoops := hgh.pendingLoops.trans hfg.pendingLoops
  sentElsewhere := by
    intro d hd
    rw [hgh.sentElsewhere d (by rw [hfg.direction]; exact hd), hfg.sent]
  toSend := by rw [hgh.toSend, held, held, hfg.curContext, hfg.bufferQ]
  freedOwn := hgh.freedOwn.trans (hfg.freed y)
  line := by
    obtain ⟨lost, hline, hfreed⟩ := hgh.line
    refine ⟨lost, ?_, by rw [hfreed, hfg.freed]⟩
    rw [down, hfg.direction, hfg.sent, held, hfg.curContext, hfg.bufferQ] at hline
    exact hline
  stack := by
    have h := hgh.stack
    rw [EntersStack, hfg.stack] at h
    exact h

/-- A work unit that holds nothing sends the packet out. -/
theorem received_sendPacketOut {f : AsyncFlowImpl σ π κ} {y : Bool}
    (hcontext : (f.getWorkUnit y).curContext = none) (hbuffer : (f.getWorkUnit y).bufferQ = [])
    (hpending : f.pendingLoops y = 0) (pkt : RtePacket π) :
    Received y pkt f (f.sendPacketOut pkt y) := by
  unfold sendPacketOut
  have hline : down (f.emit (pkt.toList.map (.send · (f.getWorkUnit y).direction))) y =
      down f y ++ pkt.toList := by
    simp [down, held, hcontext, hbuffer]
  constructor
  case line =>
    rw [hline]
    exact ⟨[], .refl _, by simp⟩
  case stack => exact .inl ⟨rfl, by simp [UnitOk, hcontext, hbuffer, hpending]⟩
  case sentElsewhere =>
    intro d hd
    simp [Ne.symm hd]
  all_goals simp

/-- A packet for a closed work unit is freed. -/
theorem received_freePacket {f : AsyncFlowImpl σ π κ} {y : Bool}
    (hy : UnitOk (f.getWorkUnit y) (f.pendingLoops y) none) (pkt : RtePacket π)
    (cause : FreeCause) : Received y pkt f (f.freePacket pkt y false cause) := by
  unfold freePacket
  have hlose := LossyLine.lose (down f y) pkt.toList []
  rw [List.append_nil, List.append_nil] at hlose
  constructor
  case line => exact ⟨pkt.toList, by simpa [down] using hlose, by simp⟩
  case stack => exact .inl ⟨rfl, hy⟩
  all_goals simp

/-- The other work unit keeps, sends or frees the packet that it is handed. -/
theorem received_handlePacketRecv {f : AsyncFlowImpl σ π κ} {y : Bool}
    (hy : UnitOk (f.getWorkUnit y) (f.pendingLoops y) none) (pkt : RtePacket π) :
    Received y pkt f (f.handlePacketRecv P pkt y) := by
  rw [handlePacketRecv]
  split
  case isTrue => exact received_freePacket hy pkt _
  case isFalse =>
    have hquiet := quiet_addReverseMapping P f pkt y
    generalize f.addReverseMapping P pkt y = g at hquiet ⊢
    have hy' : UnitOk (g.getWorkUnit y) (g.pendingLoops y) none := hquiet.unitOk hy
    refine hquiet.received ?_
    rcases actionAfterPacketHandle_spec P hy' pkt false with ⟨hnone, htakes⟩ | ⟨hsome, hpass⟩
    · generalize g.actionAfterPacketHandle P y pkt false = r at hnone htakes ⊢
      obtain ⟨g', out⟩ := r
      subst hnone
      exact htakes.received
    · generalize g.actionAfterPacketHandle P y pkt false = r at hsome hpass ⊢
      obtain ⟨g', out⟩ := r
      subst hsome
      have hquiet' : Quiet y g g' := hpass.quiet
      refine hquiet'.received (received_sendPacketOut ?_ ?_ ?_ pkt)
      · rw [hquiet'.curContext, hpass.curContext]
      · rw [hquiet'.bufferQ, hpass.bufferQ]
      · rw [hquiet'.pendingLoops, hy'.1, hpass.curContext]
        rfl

/-! ### The steps -/

/-- Preprocessing moves no packet. -/
theorem Quiet.held {x : Bool} {f g : AsyncFlowImpl σ π κ} (h : Quiet x f g) (s : Bool) :
    ∀ z, held (g.getWorkUnit z) s = held (f.getWorkUnit z) s := by
  refine forall_side x ?_ ?_
  · rw [AsyncFlow.held, AsyncFlow.held, h.curContext, h.bufferQ]
  · rw [h.other]

/-- Preprocessing sends no packet. -/
theorem Quiet.down {x : Bool} {f g : AsyncFlowImpl σ π κ} (h : Quiet x f g) :
    ∀ z, down g z = down f z := by
  refine forall_side x ?_ ?_
  · rw [AsyncFlow.down, AsyncFlow.down, h.direction, h.sent, h.held]
  · rw [AsyncFlow.down, AsyncFlow.down, h.other, h.sent]

/-- What a step does to the lines of the two sides. `arrived` are the packets that it brings. -/
def MovesLines (f f' : AsyncFlowImpl σ π κ) (arrived : Bool → List π) : Prop :=
  ∀ z, ∃ lost, LossyLine (ddLine f z ++ arrived z) (ddLine f' z) lost ∧
    freedFrom z f'.effects = freedFrom z f.effects ++ lost

/-- A step keeps the directions, and it sends nothing with a third direction. -/
structure KeepsOutputs (f f' : AsyncFlowImpl σ π κ) : Prop where
  direction : ∀ z, (f'.getWorkUnit z).direction = (f.getWorkUnit z).direction
  elsewhere : ∀ d, (∀ z, d ≠ (f.getWorkUnit z).direction) →
    sentWith d f'.effects = sentWith d f.effects

/-- What was sent and the directions decide the outputs. -/
theorem KeepsOutputs.of_sent {f f' : AsyncFlowImpl σ π κ} (x : Bool)
    (hx : (f'.getWorkUnit x).direction = (f.getWorkUnit x).direction)
    (hother : (f'.getWorkUnit (!x)).direction = (f.getWorkUnit (!x)).direction)
    (hsent : ∀ d, sentWith d f'.effects = sentWith d f.effects) : KeepsOutputs f f' :=
  ⟨forall_side x hx hother, fun d _ => hsent d⟩

/-- Preprocessing sends no packet. -/
theorem Quiet.keepsOutputs {x : Bool} {f g : AsyncFlowImpl σ π κ} (h : Quiet x f g) :
    KeepsOutputs f g :=
  .of_sent x h.direction (by rw [h.other]) h.sent

/-- Two parts of a call, one after another. -/
theorem KeepsOutputs.trans {f g h : AsyncFlowImpl σ π κ} (hfg : KeepsOutputs f g)
    (hgh : KeepsOutputs g h) : KeepsOutputs f h where
  direction := fun z => (hgh.direction z).trans (hfg.direction z)
  elsewhere := by
    intro d hd
    rw [hgh.elsewhere d (fun z => by rw [hfg.direction]; exact hd z), hfg.elsewhere d hd]

/-- A received packet is sent out by the work unit that received it. -/
theorem Received.keepsOutputs {y : Bool} {pkt : RtePacket π} {f f' : AsyncFlowImpl σ π κ}
    (h : Received y pkt f f') : KeepsOutputs f f' :=
  ⟨forall_side y h.direction (by rw [h.other]), fun d hd => h.sentElsewhere d (hd y)⟩

/-- A work unit that takes a packet sends nothing. -/
theorem Takes.keepsOutputs {x s : Bool} {pkt : RtePacket π} {f f' : AsyncFlowImpl σ π κ}
    (h : Takes x s pkt f f') : KeepsOutputs f f' :=
  .of_sent x h.direction (by rw [h.other]) h.sent

/-- The invariant together with what happened to the lines. -/
structure StepOk (f f' : AsyncFlowImpl σ π κ) (arrived : Bool → List π) : Prop where
  stackOk : StackOk f'
  outputs : KeepsOutputs f f'
  lines : MovesLines f f' arrived

/-- A step only depends on the work units and the effects that it starts with. -/
theorem StepOk.of_start {f₀ f f' : AsyncFlowImpl σ π κ} {arrived : Bool → List π}
    (h : StepOk f f' arrived) (hunit : ∀ z, f.getWorkUnit z = f₀.getWorkUnit z)
    (heffects : f.effects = f₀.effects) : StepOk f₀ f' arrived where
  stackOk := h.stackOk
  outputs := by
    refine ⟨fun z => by rw [h.outputs.direction, hunit], fun d hd => ?_⟩
    rw [h.outputs.elsewhere d (fun z => by rw [hunit]; exact hd z), heffects]
  lines := by
    intro z
    have hz := h.lines z
    rw [ddLine, down, hunit, hunit, heffects] at hz
    exact hz

/-- No packet arrives. -/
def noArrival : Bool → List π := fun _ => []

/-- Both lines stay as they are, and nothing is freed. -/
theorem movesLines_of_eq {f f' : AsyncFlowImpl σ π κ} (hline : ∀ z, ddLine f' z = ddLine f z)
    (hfreed : ∀ z, freedFrom z f'.effects = freedFrom z f.effects) :
    MovesLines f f' noArrival := by
  intro z
  refine ⟨[], ?_, by rw [hfreed, List.append_nil]⟩
  rw [hline, noArrival, List.append_nil]
  exact .refl _

/-- The lines after the work unit of `x` gave the packets `pkts` to the other work unit. -/
theorem Received.movesLines {x : Bool} {pkt : RtePacket π} {f g h : AsyncFlowImpl σ π κ}
    {arrived : Bool → List π} (hgh : Received (!x) pkt g h) (hopp : Opposed g)
    (hsend : held (f.getWorkUnit x) true ++ arrived x =
      pkt.toList ++ held (g.getWorkUnit x) true)
    (hdown : down g x = down f x) (hother : down g (!x) = down f (!x))
    (hholds : held (g.getWorkUnit (!x)) true = held (f.getWorkUnit (!x)) true)
    (harrived : arrived (!x) = [])
    (hfreed : ∀ z, freedFrom z g.effects = freedFrom z f.effects) : MovesLines f h arrived := by
  have hunit : h.getWorkUnit x = g.getWorkUnit x := by simpa using hgh.other
  refine forall_side x ?_ ?_
  · obtain ⟨lost, hline, hlost⟩ := hgh.line
    rw [Bool.not_not, hfreed] at hlost
    refine ⟨lost, ?_, hlost⟩
    have hmove := hline.append_right (held (g.getWorkUnit x) true)
    rw [List.append_assoc, ← hsend, hother, ← List.append_assoc] at hmove
    rw [ddLine, ddLine, hunit]
    exact hmove
  · refine ⟨[], ?_, by rw [hgh.freedOwn, hfreed, List.append_nil]⟩
    have hsent := hgh.sentElsewhere _ (hopp x)
    have hline : ddLine h (!x) = ddLine f (!x) := by
      rw [ddLine, ddLine, Bool.not_not, hgh.toSend, hholds, down, hunit, hsent, ← hdown, down]
    rw [hline, harrived, List.append_nil]
    exact .refl _

/-- A packet that arrives at the side `x`. -/
def arrivesAt (x : Bool) (pkts : List π) : Bool → List π := fun z => if z = x then pkts else []

/-- What arrives at side `x`. -/
@[simp] theorem arrivesAt_self (x : Bool) (pkts : List π) : arrivesAt x pkts x = pkts :=
  if_pos rfl

/-- Nothing arrives at the other side. -/
@[simp] theorem arrivesAt_not (x : Bool) (pkts : List π) : arrivesAt x pkts (!x) = [] := by
  cases x <;> rfl

/-- A packet entered a work unit while nothing was running. -/
theorem stackOk_of_enters_nil {x s : Bool} {f f' : AsyncFlowImpl σ π κ} (hstack : f.stack = [])
    (h : EntersStack x s f f')
    (hother : UnitOk (f'.getWorkUnit (!x)) (f'.pendingLoops (!x)) none) : StackOk f' := by
  rcases h with ⟨hsame, hx⟩ | ⟨hpush, hx, -, -⟩
  · refine stackOk_return hx ?_
    rw [hsame, hstack]
    exact hother
  · refine stackOk_cons hpush hx ?_
    rw [hstack]
    exact hother

/-- A packet entered a work unit while the other one was forwarding it. -/
theorem stackOk_of_enters_one {y : Bool} {pos : Position} {f f' : AsyncFlowImpl σ π κ}
    (hstack : f.stack = [⟨!y, pos⟩]) (hsusp : Suspended pos) (h : EntersStack y false f f')
    (hother : UnitOk (f'.getWorkUnit (!y)) (f'.pendingLoops (!y)) (some pos)) : StackOk f' := by
  rcases h with ⟨hsame, hy⟩ | ⟨hpush, hy, hbuffer, hcontext⟩
  · refine stackOk_cons (hsame.trans hstack) hother ?_
    rw [RestOk, Bool.not_not]
    exact hy
  · refine stackOk_cons hpush hy ?_
    rw [hstack]
    exact ⟨rfl, hsusp, hother, hbuffer, hcontext⟩

/-- A packet that its side does not take is freed. -/
theorem stepOk_freePacket {f : AsyncFlowImpl σ π κ} (hf : StackOk f)
    (pkt : RtePacket π) (x : Bool) (cause : FreeCause) :
    StepOk f (f.freePacket pkt x true cause) (arrivesAt x pkt.toList) := by
  refine ⟨hf, ⟨fun _ => rfl, fun d _ => by simp [freePacket]⟩,
    forall_side x ⟨pkt.toList, ?_, ?_⟩ ⟨[], ?_, ?_⟩⟩
  · have hlose := LossyLine.lose (ddLine f x) pkt.toList []
    simpa [ddLine, down, freePacket] using hlose
  · simp [freePacket]
  · simpa [ddLine, down, freePacket] using LossyLine.refl (ddLine f (!x))
  · simp [freePacket]

/-- The packet that a work unit took stands at the end of the line of its side. -/
theorem Takes.movesLines {x : Bool} {pkt : RtePacket π} {f f' : AsyncFlowImpl σ π κ}
    (h : Takes x true pkt f f') : MovesLines f f' (arrivesAt x pkt.toList) := by
  have hopposite : held (f'.getWorkUnit x) false = held (f.getWorkUnit x) false := h.opposite
  refine forall_side x ⟨[], ?_, ?_⟩ ⟨[], ?_, ?_⟩
  · rw [arrivesAt_self, ddLine, ddLine, down, down, h.other, h.sent, h.same, List.append_assoc]
    exact .refl _
  · rw [h.freed, List.append_nil]
  · have hline : ddLine f' (!x) = ddLine f (!x) := by
      rw [ddLine, ddLine, down, down, Bool.not_not, h.other, h.sent, h.direction, hopposite]
    rw [hline, arrivesAt_not, List.append_nil]
    exact .refl _
  · rw [h.freed, List.append_nil]

/-- A packet arrives at the side `x`. -/
theorem stepOk_handlePacketSend {f : AsyncFlowImpl σ π κ} (hf : StackOk f) (hopp : Opposed f)
    (hstack : f.stack = []) (pkt : RtePacket π) (direction : Nat) :
    StepOk f (f.handlePacketSend P pkt direction)
      (arrivesAt (direction == f.client.direction) pkt.toList) := by
  unfold handlePacketSend
  dsimp only
  generalize (direction == f.client.direction) = x
  have hunits : ∀ x, UnitOk (f.getWorkUnit x) (f.pendingLoops x) none := by
    simpa [StackOk, hstack] using hf
  split
  · exact stepOk_freePacket hf pkt x _
  · split
    · exact stepOk_freePacket hf pkt x _
    · -- The packet is held by its own side, or it goes on to the other one.
      rcases actionAfterPacketHandle_spec P (hunits x) pkt true with ⟨hnone, htakes⟩ |
        ⟨hsome, hpass⟩
      · generalize f.actionAfterPacketHandle P x pkt true = r at hnone htakes ⊢
        obtain ⟨f', out⟩ := r
        subst hnone
        refine ⟨stackOk_of_enters_nil hstack htakes.stack ?_,
          htakes.keepsOutputs, htakes.movesLines⟩
        rw [htakes.other, htakes.pendingLoops]
        exact hunits _
      · generalize f.actionAfterPacketHandle P x pkt true = r at hsome hpass ⊢
        obtain ⟨f', out⟩ := r
        subst hsome
        have hquiet : Quiet x f f' := hpass.quiet
        have hother : UnitOk (f'.getWorkUnit (!x)) (f'.pendingLoops (!x)) none := by
          rw [hquiet.other, hquiet.pendingLoops]
          exact hunits _
        have hrecv := received_handlePacketRecv P hother pkt
        -- A packet that passes had nothing in front of it.
        have hempty : held (f.getWorkUnit x) true = [] := by
          simp [held, hpass.curContext, hpass.bufferQ]
        have hempty' : held (f'.getWorkUnit x) true = [] := by
          rw [held, hquiet.curContext, hquiet.bufferQ]
          exact hempty
        dsimp only
        rw [internalPacketForward, if_pos rfl]
        refine ⟨stackOk_of_enters_nil (hquiet.stack.trans hstack) hrecv.stack ?_, ?_, ?_⟩
        · rw [hrecv.other, hrecv.pendingLoops, Bool.not_not]
          exact hquiet.unitOk (hunits x)
        · exact hquiet.keepsOutputs.trans hrecv.keepsOutputs
        · refine hrecv.movesLines (hopp.quiet hquiet) ?_ (hquiet.down x) (hquiet.down (!x)) ?_
            (arrivesAt_not x _) hquiet.freed
          · simp [hempty, hempty']
          · rw [hquiet.other]

/-- No packet is no arrival. -/
theorem arrivesAt_nil (x : Bool) : arrivesAt x ([] : List π) = noArrival := by
  funext z
  exact ite_self _

/-- Preprocessing leaves both lines as they are. -/
theorem Quiet.movesLines {x : Bool} {f g : AsyncFlowImpl σ π κ} (h : Quiet x f g) :
    MovesLines f g noArrival :=
  movesLines_of_eq (fun z => by rw [ddLine, ddLine, h.down, h.held]) h.freed

/-- The passive close of the side `x`. Its context has no packet. -/
theorem stepOk_pprPassiveClose {f : AsyncFlowImpl σ π κ} (hf : StackOk f)
    (hstack : f.stack = []) (x : Bool) : StepOk f (f.pprPassiveClose x) noArrival := by
  have hquiet := quiet_closePprAndRemoveFlowKey f x
  have hunits : ∀ x, UnitOk (f.getWorkUnit x) (f.pendingLoops x) none := by
    simpa [StackOk, hstack] using hf
  have hother : UnitOk ((f.closePprAndRemoveFlowKey x).getWorkUnit (!x))
      ((f.closePprAndRemoveFlowKey x).pendingLoops (!x)) none := by
    rw [hquiet.other, hquiet.pendingLoops]
    exact hunits _
  unfold pprPassiveClose
  dsimp only
  split
  case isTrue h =>
    rw [Bool.and_eq_true, Option.isNone_iff_eq_none] at h
    have hx := hquiet.unitOk (hunits x)
    have htakes : Takes x true none f _ := hquiet.takes
      (takes_startLoop none .makeCloseEvent true h.2 (hx.2.2 h.2) (by simpa [h.2] using hx.1))
    refine ⟨stackOk_of_enters_nil hstack htakes.stack ?_,
      htakes.keepsOutputs, ?_⟩
    · rw [htakes.other, htakes.pendingLoops]
      exact hunits _
    · rw [← arrivesAt_nil x]
      exact htakes.movesLines
  case isFalse =>
    refine ⟨stackOk_return (hquiet.unitOk (hunits x)) ?_, hquiet.keepsOutputs, hquiet.movesLines⟩
    rw [hquiet.stack, hstack]
    exact hother

/-! ### A packet leaves a work unit -/

/-- `g` is `f` after the first packet that the work unit of `x` holds, `pkt`, was moved out of it.
The work unit goes on at `pos`. -/
structure MovedOut (x s : Bool) (pkt : RtePacket π) (pos : Position) (f g : AsyncFlowImpl σ π κ) :
    Prop where
  other : g.getWorkUnit (!x) = f.getWorkUnit (!x)
  direction : (g.getWorkUnit x).direction = (f.getWorkUnit x).direction
  pendingLoops : g.pendingLoops = f.pendingLoops
  sent : ∀ d, sentWith d g.effects = sentWith d f.effects
  freed : ∀ z, freedFrom z g.effects = freedFrom z f.effects
  same : held (f.getWorkUnit x) s = pkt.toList ++ held (g.getWorkUnit x) s
  opposite : held (g.getWorkUnit x) (!s) = held (f.getWorkUnit x) (!s)
  stack : g.stack = ⟨x, pos⟩ :: f.stack
  unitOk : UnitOk (g.getWorkUnit x) (g.pendingLoops x) (some pos)
  light : Light (f.getWorkUnit x) → Light (g.getWorkUnit x)

namespace MovedOut

variable {x s : Bool} {pkt : RtePacket π} {pos : Position} {f g : AsyncFlowImpl σ π κ}

/-- The invariant holds with the frame that waits for the other work unit. -/
theorem stackOk (h : MovedOut x s pkt pos f g) (hrest : RestOk f x f.stack) : StackOk g :=
  stackOk_cons h.stack h.unitOk (hrest.congr h.other (by rw [h.pendingLoops]) h.light)

/-- The directions stay as they are. -/
theorem opposed (h : MovedOut x s pkt pos f g) (hopp : Opposed f) : Opposed g :=
  hopp.of_direction h.direction (by rw [h.other])

/-- The packet only goes out at the other side. -/
theorem keepsOutputs (h : MovedOut x s pkt pos f g) : KeepsOutputs f g :=
  .of_sent x h.direction (by rw [h.other]) h.sent

/-- Nothing changes below the other side. -/
theorem down_other (h : MovedOut x s pkt pos f g) : down g (!x) = down f (!x) := by
  rw [down, down, h.other, h.sent]

/-- A packet to send was at the front of the line of `x`, behind what the other work unit has. -/
theorem ddLine_send (h : MovedOut x true pkt pos f g) :
    ddLine f x = down g (!x) ++ pkt.toList ++ held (g.getWorkUnit x) true ∧
      ddLine g (!x) = ddLine f (!x) := by
  have hopposite : held (g.getWorkUnit x) false = held (f.getWorkUnit x) false := h.opposite
  constructor
  · rw [ddLine, h.same, h.down_other, List.append_assoc]
  · rw [ddLine, ddLine, down, down, Bool.not_not, h.direction, h.sent, hopposite, h.other]

/-- A received packet was next to go out. -/
theorem ddLine_recv (h : MovedOut x false pkt pos f g) :
    ddLine f (!x) = sentWith (g.getWorkUnit x).direction g.effects ++ pkt.toList ++
        (held (g.getWorkUnit x) false ++ held (g.getWorkUnit (!x)) true) ∧
      ddLine g x = ddLine f x := by
  have hopposite : held (g.getWorkUnit x) true = held (f.getWorkUnit x) true := h.opposite
  constructor
  · rw [ddLine, down, Bool.not_not, h.same, h.direction, h.sent, h.other]
    simp
  · rw [ddLine, ddLine, h.down_other, hopposite]

/-- The packet is freed. -/
theorem stepOk_freePacket (h : MovedOut x s pkt pos f g) (hrest : RestOk f x f.stack)
    (cause : FreeCause) :
    StepOk f (g.freePacket pkt x s cause) noArrival := by
  refine ⟨h.stackOk hrest, h.keepsOutputs.trans
    ⟨fun _ => rfl, fun d _ => by simp [freePacket]⟩, ?_⟩
  have hline (z : Bool) : ddLine (g.freePacket pkt x s cause) z = ddLine g z := by
    simp [ddLine, down, freePacket]
  cases s with
  | true =>
    obtain ⟨hown, hother⟩ := h.ddLine_send
    refine forall_side x ⟨pkt.toList, ?_, by simp [freePacket, h.freed]⟩
      ⟨[], ?_, by simp [freePacket, h.freed]⟩
    · rw [hline, hown, noArrival, List.append_nil]
      exact .lose _ _ _
    · rw [hline, hother, noArrival, List.append_nil]
      exact .refl _
  | false =>
    obtain ⟨hown, hother⟩ := h.ddLine_recv
    refine forall_side x ⟨[], ?_, by simp [freePacket, h.freed]⟩
      ⟨pkt.toList, ?_, by simp [freePacket, h.freed]⟩
    · rw [hline, hother, noArrival, List.append_nil]
      exact .refl _
    · have hrest : ddLine g (!x) = sentWith (g.getWorkUnit x).direction g.effects ++
          (held (g.getWorkUnit x) false ++ held (g.getWorkUnit (!x)) true) := by
        rw [ddLine, down, Bool.not_not, List.append_assoc]
      rw [hline, hown, hrest, noArrival, List.append_nil]
      exact .lose _ _ _

/-- The packet goes out. -/
theorem stepOk_sendPacketOut (h : MovedOut x false pkt pos f g) (hopp : Opposed f)
    (hrest : RestOk f x f.stack) : StepOk f (g.sendPacketOut pkt x) noArrival := by
  have hopp' := h.opposed hopp
  obtain ⟨hown, hother⟩ := h.ddLine_recv
  refine ⟨h.stackOk hrest, h.keepsOutputs.trans ⟨fun _ => rfl, fun d hd => ?_⟩,
    movesLines_of_eq (forall_side x ?_ ?_) ?_⟩
  · simp [sendPacketOut, Ne.symm (hd x)]
  · rw [← hother]
    simp [ddLine, down, sendPacketOut, hopp' x]
  · rw [hown]
    simp [ddLine, down, sendPacketOut]
  · intro z
    simp [sendPacketOut, h.freed]

/-- Nothing was moved out, and the work unit goes on. -/
theorem stepOk (h : MovedOut x s none pos f g) (hrest : RestOk f x f.stack) :
    StepOk f g noArrival := by
  have hfree : g.freePacket none x s .closedUnit = g := by simp [freePacket, emit]
  have hstep := h.stepOk_freePacket hrest .closedUnit
  rwa [hfree] at hstep

/-- The null packet goes nowhere. -/
theorem stepOk_null (h : MovedOut x true none pos f g) (hrest : RestOk f x f.stack) :
    StepOk f (g.handlePacketRecv P none (!x)) noArrival := by
  have hnull : g.handlePacketRecv P none (!x) = g.freePacket none x true .closedUnit := by
    rw [handlePacketRecv, if_pos (by simp)]
    rfl
  rw [hnull]
  exact h.stepOk_freePacket hrest _

/-- The packet goes to the other work unit. -/
theorem stepOk_handlePacketRecv (h : MovedOut x true pkt pos f g) (hsusp : Suspended pos)
    (hopp : Opposed f) (hrest : RestOk f x f.stack) :
    StepOk f (g.handlePacketRecv P pkt (!x)) noArrival := by
  cases hstack : f.stack with
  | nil =>
    have hother : UnitOk (g.getWorkUnit (!x)) (g.pendingLoops (!x)) none := by
      rw [hstack] at hrest
      rw [h.other, h.pendingLoops]
      exact hrest
    have hrecv := received_handlePacketRecv P hother pkt
    have hone : g.stack = [⟨!!x, pos⟩] := by rw [h.stack, hstack, Bool.not_not]
    have hopposite : held (g.getWorkUnit x) false = held (f.getWorkUnit x) false := h.opposite
    refine ⟨stackOk_of_enters_one hone hsusp hrecv.stack ?_, ?_, ?_⟩
    · rw [hrecv.other, hrecv.pendingLoops, Bool.not_not]
      exact h.unitOk
    · exact h.keepsOutputs.trans hrecv.keepsOutputs
    · refine hrecv.movesLines (h.opposed hopp) ?_ ?_ h.down_other (by rw [h.other]) rfl h.freed
      · rw [noArrival, List.append_nil, h.same]
      · rw [down, down, h.direction, h.sent, hopposite]
  | cons F rest =>
    -- A work unit on top of another one holds no packet to send, so it cannot reach back.
    have hnull : pkt = none := by
      cases rest with
      | cons F' rest =>
        rw [hstack] at hrest
        exact hrest.elim
      | nil =>
        rw [hstack] at hrest
        have hlight : held (f.getWorkUnit x) true = [] := by
          rw [held, hrest.2.2.2.1, hrest.2.2.2.2]
          rfl
        rw [h.same] at hlight
        cases pkt with
        | none => rfl
        | some p => cases hlight
    subst hnull
    exact h.stepOk_null P hrest

/-- `internal_packet_forward`. -/
theorem stepOk_internalPacketForward (h : MovedOut x s pkt pos f g) (hsusp : Suspended pos)
    (hopp : Opposed f) (hrest : RestOk f x f.stack) :
    StepOk f (g.internalPacketForward P pkt x s) noArrival := by
  cases s with
  | true => exact h.stepOk_handlePacketRecv P hsusp hopp hrest
  | false => exact h.stepOk_sendPacketOut hopp hrest

end MovedOut

end Netstar.Proofs.AsyncFlow
