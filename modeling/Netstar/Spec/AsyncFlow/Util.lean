import Mathlib.Data.List.Basic

/-!
# `Netstar.Spec.AsyncFlow.Util`: events and work units of `async_flow_util.hh`

The event classes store one bit per event in an `event_storage_type`, a `uint16_t`. Bit 15 is
the close event. A preprocessor generates events, an async flow registers the events it wants,
and `filter` keeps the generated events that are registered. The close bit is registered from
the start.

`async_flow_assert` is compiled out in the source (`ENABLE_AF_ASSERTION` is not defined), so no
definition checks its conditions.

An `rte_packet` owns one buffer or none. The model keeps the packet's identity: `none` is the
null packet, which a moved-from packet and a synthetic close event have. The content of a packet
stays in the type `π`.
-/

set_option autoImplicit false

namespace Netstar.Spec.AsyncFlow

/-- `event_storage_type`. -/
abbrev EventStorage := BitVec 16

/-- `1 << (sizeof(est)*8-1)`, the bit of the close event. -/
def closeMask : EventStorage := 1#16 <<< 15

/-- `1 << static_cast<est>(ev)`. An event is its enumeration value. -/
def eventMask (ev : Nat) : EventStorage := 1#16 <<< ev

/-- `generated_events`. -/
structure GeneratedEvents where
  bits : EventStorage
  deriving DecidableEq, Repr

namespace GeneratedEvents

/-- The constructor `generated_events()`. -/
def empty : GeneratedEvents := ⟨0⟩

/-- `event_happen`. -/
def eventHappen (ge : GeneratedEvents) (ev : Nat) : GeneratedEvents := ⟨ge.bits ||| eventMask ev⟩

/-- `close_event_happen`. -/
def closeEventHappen (ge : GeneratedEvents) : GeneratedEvents := ⟨ge.bits ||| closeMask⟩

/-- `on_close_event` of the generated events. -/
def onCloseEvent (ge : GeneratedEvents) : Bool := ge.bits &&& closeMask != 0

end GeneratedEvents

/-- `filtered_events`. -/
structure FilteredEvents where
  bits : EventStorage
  deriving DecidableEq, Repr

namespace FilteredEvents

/-- `on_close_event` of the filtered events. -/
def onCloseEvent (fe : FilteredEvents) : Bool := fe.bits &&& closeMask != 0

/-- `no_event`. -/
def noEvent (fe : FilteredEvents) : Bool := fe.bits == 0

/-- `make_close_event`. -/
def makeCloseEvent : FilteredEvents := ⟨closeMask⟩

end FilteredEvents

/-- `registered_events`. -/
structure RegisteredEvents where
  bits : EventStorage
  deriving DecidableEq, Repr

namespace RegisteredEvents

/-- `unregister_all_events`, which is also the state after construction. -/
def unregisterAllEvents : RegisteredEvents := ⟨closeMask⟩

/-- `register_event`. -/
def registerEvent (re : RegisteredEvents) (ev : Nat) : RegisteredEvents :=
  ⟨re.bits ||| eventMask ev⟩

/-- `unregister_event`. -/
def unregisterEvent (re : RegisteredEvents) (ev : Nat) : RegisteredEvents :=
  ⟨re.bits &&& ~~~eventMask ev⟩

/-- `filter`: the generated events that are registered. -/
def filter (re : RegisteredEvents) (ge : GeneratedEvents) : FilteredEvents :=
  ⟨re.bits &&& ge.bits⟩

end RegisteredEvents

/-- A filtered close event is an event. -/
theorem FilteredEvents.noEvent_eq_false_of_onCloseEvent {fe : FilteredEvents}
    (h : fe.onCloseEvent = true) : fe.noEvent = false := by
  rw [noEvent, beq_eq_false_iff_ne]
  intro hzero
  simp [onCloseEvent, hzero] at h

/-- `af_action`, the result of one loop iteration. -/
inductive AfAction where
  | forward
  | drop
  | closeForward
  | closeDrop
  deriving DecidableEq, Repr

namespace AfAction

/-- `action == forward || action == close_forward`. -/
def forwards : AfAction → Bool
  | .forward | .closeForward => true
  | .drop | .closeDrop => false

/-- `action == close_drop || action == close_forward`. -/
def closes : AfAction → Bool
  | .closeForward | .closeDrop => true
  | .forward | .drop => false

end AfAction

/-- How the future of one `loop_fn()` call ends: with an action, or with an exception. A call
that throws before it returns a future counts as the latter, since `invoke_async_loop` handles
both with `async_loop_exception_handler`. -/
inductive LoopResult where
  | action (a : AfAction)
  | failed
  deriving DecidableEq, Repr

/-- `rte_packet`: the packet it owns, if any. -/
abbrev RtePacket (π : Type) := Option π

/-- A preprocessor. `σ` is its state, `π` the packets and `κ` the flow keys. The two handlers
update the state and generate events. The expiry timer of a preprocessor is not part of it: a
run of a flow decides when it fires. -/
structure Ppr (σ π κ : Type) where
  /-- The constructor, given `is_client`. -/
  init : Bool → σ
  handlePacketSend : σ → RtePacket π → σ × GeneratedEvents
  handlePacketRecv : σ → RtePacket π → σ × GeneratedEvents
  getReverseFlowKey : σ → RtePacket π → κ

/-- `buffered_packet`. -/
structure BufferedPacket (π : Type) where
  pkt : RtePacket π
  isSend : Bool
  deriving DecidableEq, Repr

/-- `packet_context`. -/
structure PacketContext (π : Type) where
  pkt : RtePacket π
  fe : FilteredEvents
  isSend : Bool
  deriving DecidableEq, Repr

/-- `af_work_unit`. `loopFn` tells whether `loop_fn != nullptr`, and `asyncLoopQuitPr` whether
the optional promise is engaged. What the loop function does is up to the run. -/
structure AfWorkUnit (σ π κ : Type) where
  ppr : σ
  asyncLoopQuitPr : Bool
  sendEvents : RegisteredEvents
  recvEvents : RegisteredEvents
  bufferQ : List (BufferedPacket π)
  flowKey : Option κ
  curContext : Option (PacketContext π)
  loopFn : Bool
  direction : Nat
  pprClose : Bool
  deriving DecidableEq, Repr

/-- The constructor of `af_work_unit`. -/
def AfWorkUnit.create {σ π κ : Type} (P : Ppr σ π κ) (isClient : Bool) (direction : Nat) :
    AfWorkUnit σ π κ where
  ppr := P.init isClient
  asyncLoopQuitPr := false
  sendEvents := .unregisterAllEvents
  recvEvents := .unregisterAllEvents
  bufferQ := []
  flowKey := none
  curContext := none
  loopFn := false
  direction := direction
  pprClose := false

/-- Why the destructor of a packet frees its buffer. -/
inductive FreeCause where
  /-- A loop iteration returned `drop` or `close_drop`. -/
  | dropAction
  /-- `async_loop_exception_handler`. -/
  | exception
  /-- The work unit was closed when the packet arrived. -/
  | closedUnit
  /-- The initial context was not destroyed when the packet arrived. -/
  | initialContext
  deriving DecidableEq, Repr

/-- What a flow does to the world around it, in order: calls of its manager, freed packets, and
the result of the future that `run_async_loop` returned. A freed packet comes with the side at
which it arrived. -/
inductive Effect (π κ : Type) where
  | send (pkt : π) (direction : Nat)
  | addMapping (key : κ)
  | removeMapping (key : κ)
  | free (pkt : π) (fromClient : Bool) (cause : FreeCause)
  | quit (ok : Bool)
  deriving DecidableEq, Repr

/-- `get_reverse_direction` of both managers. -/
def getReverseDirection (direction : Nat) : Nat := if direction = 0 then 1 else 0

/-- The constants of `Ppr::async_flow_config` that a manager reads. -/
structure AsyncFlowConfig where
  newFlowQueueSize : Nat
  maxFlowTableSize : Nat
  deriving DecidableEq, Repr

/-- `queue_item` of both managers, and also their initial contexts, which have the same fields. The
packet is the one that created the flow, so it is not null. -/
structure QueueItem (π : Type) where
  implPtr : Nat
  pkt : π
  direction : Nat
  deriving DecidableEq, Repr

end Netstar.Spec.AsyncFlow
