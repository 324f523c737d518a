import Netstar.Lib.BackLinks
import Netstar.Lib.Run
import Netstar.Spec.Rpc.BackPointers

/-!
# `Netstar.Proofs.Rpc.BackPointers`: pointers between cancellables and calls

Entries and cancellables are one instance of `BackLinked`, and handlers and cancellables another. All
constructors, destructors and moves keep both, and so do the closures, which capture what the back
pointers designate.

The send loop breaks the first. It moves an entry to a new place with its `pcancel`, and resets
`cancel_send`, but the back pointer of the cancellable still designates the place in the queue, which
is gone then. So the pointers are right exactly if no entry with a cancellable is ever taken.
-/

set_option autoImplicit false

namespace Netstar.Proofs.Rpc.BackPointers

open Netstar.Lib
open Netstar.Spec.Rpc.BackPointers
open Netstar.Spec.Rpc.BackPointers.Connection

/-! ### The two instances -/

/-- The entries of the queue, with their cancellables. -/
def sendNodes (s : Connection) : List (Nat × Option Nat) :=
  s.outgoingQueue.map fun e => (e.self, e.pcancel)

/-- The handlers, with their cancellables. -/
def waitNodes (s : Connection) : List (Nat × Option Nat) :=
  s.outstanding.map fun h => (h.id, h.pcancel)

/-- A pointer of the cancellables, where they are alive. -/
def backOf (g : Cancellable → Option Nat) (cs : Nat → Option Cancellable) :
    Nat → Option (Option Nat) :=
  fun c => (cs c).map g

/-- A closure captures what the back pointer designates. -/
def Closed (cs : Nat → Option Cancellable) : Prop :=
  ∀ c x, cs c = some x → x.cancelSend = x.sendBackPointer ∧ x.cancelWait = x.waitBackPointer

/-- The invariant. -/
structure Inv (s : Connection) : Prop where
  safe : s.undefined = false
  sends : BackLinked (sendNodes s) (backOf (·.sendBackPointer) s.cancellables)
  waits : BackLinked (waitNodes s) (backOf (·.waitBackPointer) s.cancellables)
  closures : Closed s.cancellables
  freshSelf : ∀ e ∈ s.outgoingQueue, e.self < s.nextSelf
  freshId : ∀ h ∈ s.outstanding, h.id < s.messageId
  writing : ∀ d ∈ s.writing, d.pcancel = none

/-- The nodes of the queue are its entries with their cancellables. -/
theorem mem_sendNodes {s : Connection} {i : Nat} {o : Option Nat} :
    (i, o) ∈ sendNodes s ↔ ∃ e ∈ s.outgoingQueue, e.self = i ∧ e.pcancel = o := by
  rw [sendNodes, List.mem_map]
  simp

/-- The nodes of the outstanding calls are their handlers with their cancellables. -/
theorem mem_waitNodes {s : Connection} {i : Nat} {o : Option Nat} :
    (i, o) ∈ waitNodes s ↔ ∃ h ∈ s.outstanding, h.id = i ∧ h.pcancel = o := by
  rw [waitNodes, List.mem_map]
  simp

/-- The back pointer of a cancellable is read from the cancellable that is alive there. -/
theorem backOf_eq_some {g : Cancellable → Option Nat} {cs : Nat → Option Cancellable} {c : Nat}
    {p : Option Nat} : backOf g cs c = some p ↔ ∃ x, cs c = some x ∧ g x = p :=
  Option.map_eq_some_iff

/-- The invariant says that the pointers match both ways. -/
theorem Inv.linked {s : Connection} (hi : Inv s) : s.Linked := by
  have hentry : ∀ c x i, s.cancellables c = some x → x.sendBackPointer = some i →
      ∃ e ∈ s.outgoingQueue, e.self = i ∧ e.pcancel = some c := fun c x i hx hp =>
    mem_sendNodes.mp ((hi.sends.agree i c).mpr (backOf_eq_some.mpr ⟨x, hx, hp⟩))
  have hhandler : ∀ c x id, s.cancellables c = some x → x.waitBackPointer = some id →
      ∃ h ∈ s.outstanding, h.id = id ∧ h.pcancel = some c := fun c x id hx hp =>
    mem_waitNodes.mp ((hi.waits.agree id c).mpr (backOf_eq_some.mpr ⟨x, hx, hp⟩))
  constructor
  · intro c x i hx hp
    obtain ⟨e, hmem, hrest⟩ := hentry c x i hx hp
    exact ⟨e, List.mem_append_left _ hmem, hrest⟩
  · exact hhandler
  · intro e hmem c hc
    rcases List.mem_append.mp hmem with hmem | hmem
    · obtain ⟨x, hx, -⟩ := backOf_eq_some.mp
        ((hi.sends.agree e.self c).mp (mem_sendNodes.mpr ⟨e, hmem, rfl, hc⟩))
      exact Option.isSome_iff_exists.mpr ⟨x, hx⟩
    · rw [hi.writing e (Option.mem_toList.mp hmem)] at hc
      cases hc
  · intro h hmem c hc
    obtain ⟨x, hx, -⟩ := backOf_eq_some.mp
      ((hi.waits.agree h.id c).mp (mem_waitNodes.mpr ⟨h, hmem, rfl, hc⟩))
    exact Option.isSome_iff_exists.mpr ⟨x, hx⟩
  · intro c x i hx hp
    rw [(hi.closures c x hx).1] at hp
    obtain ⟨e, hmem, hself, -⟩ := hentry c x i hx hp
    exact ⟨e, hmem, hself⟩
  · intro c x id hx hp
    rw [(hi.closures c x hx).2] at hp
    obtain ⟨h, hmem, hid, -⟩ := hhandler c x id hx hp
    exact ⟨h, hmem, hid⟩

/-! ### Writes through `pcancel` -/

/-- The cancellables after a write to `*pcancel`. -/
def applied (cs : Nat → Option Cancellable) (pcancel : Option Nat) (f : Cancellable → Cancellable) :
    Nat → Option Cancellable :=
  fun c => if pcancel = some c then (cs c).map f else cs c

/-- Writing through a pointer to a live cancellable changes that cancellable only. -/
theorem modify_eq {s : Connection} {o : Option Nat} (f : Cancellable → Cancellable)
    (halive : ∀ c, o = some c → (s.cancellables c).isSome = true) :
    s.modify o f = { s with cancellables := applied s.cancellables o f } := by
  cases o with
  | none => rfl
  | some c =>
    obtain ⟨x, hx⟩ := Option.isSome_iff_exists.mp (halive c rfl)
    have hupdate : Function.update s.cancellables c (some (f x)) =
        applied s.cancellables (some c) f := by
      funext d
      rw [applied]
      by_cases hdc : d = c
      · subst hdc
        rw [Function.update_self, if_pos rfl, hx]
        rfl
      · rw [Function.update_of_ne hdc, if_neg fun heq => hdc (Option.some.inj heq).symm]
    rw [Connection.modify]
    simp only [hx]
    rw [hupdate]

/-- A pointer that the write sets. -/
theorem backOf_applied {g : Cancellable → Option Nat} {f : Cancellable → Cancellable}
    {p : Option Nat} (hf : ∀ x, g (f x) = p) {cs : Nat → Option Cancellable} {o : Option Nat}
    (halive : ∀ c, o = some c → (cs c).isSome = true) :
    backOf g (applied cs o f) = setBack (backOf g cs) o p := by
  funext d
  cases o with
  | none => rfl
  | some c =>
    rw [backOf, applied, setBack]
    by_cases hdc : d = c
    · subst hdc
      obtain ⟨x, hx⟩ := Option.isSome_iff_exists.mp (halive d rfl)
      rw [if_pos rfl, Function.update_self, hx, ← hf x]
      rfl
    · rw [if_neg fun heq => hdc (Option.some.inj heq).symm, Function.update_of_ne hdc]
      rfl

/-- A pointer that the write leaves. -/
theorem backOf_applied_same {g : Cancellable → Option Nat} {f : Cancellable → Cancellable}
    (hf : ∀ x, g (f x) = g x) (cs : Nat → Option Cancellable) (o : Option Nat) :
    backOf g (applied cs o f) = backOf g cs := by
  funext d
  rw [backOf, backOf, applied]
  split
  · cases cs d with
    | none => rfl
    | some x => exact congrArg some (hf x)
  · rfl

/-- The closures follow the pointers if the write sets both. -/
theorem closed_applied {f : Cancellable → Cancellable}
    (hf : ∀ x, x.cancelSend = x.sendBackPointer ∧ x.cancelWait = x.waitBackPointer →
      (f x).cancelSend = (f x).sendBackPointer ∧ (f x).cancelWait = (f x).waitBackPointer)
    {cs : Nat → Option Cancellable} (o : Option Nat) (h : Closed cs) : Closed (applied cs o f) := by
  intro c y hy
  rw [applied] at hy
  split at hy
  · obtain ⟨x, hx, rfl⟩ := Option.map_eq_some_iff.mp hy
    exact hf x (h c x hx)
  · exact h c y hy

/-- The writes to the half of the sending: the closure and the back pointer. -/
def setSend (p : Option Nat) (x : Cancellable) : Cancellable :=
  { x with cancelSend := p, sendBackPointer := p }

/-- The writes to the half of the wait. -/
def setWait (p : Option Nat) (x : Cancellable) : Cancellable :=
  { x with cancelWait := p, waitBackPointer := p }

/-- Setting the send callback sets the send back pointer and keeps the wait one. -/
theorem setSend_spec {cs : Nat → Option Cancellable} {o : Option Nat} (p : Option Nat)
    (halive : ∀ c, o = some c → (cs c).isSome = true) (h : Closed cs) :
    backOf (·.sendBackPointer) (applied cs o (setSend p)) =
        setBack (backOf (·.sendBackPointer) cs) o p ∧
      backOf (·.waitBackPointer) (applied cs o (setSend p)) = backOf (·.waitBackPointer) cs ∧
      Closed (applied cs o (setSend p)) :=
  ⟨backOf_applied (f := setSend p) (fun _ => rfl) halive,
    backOf_applied_same (f := setSend p) (fun _ => rfl) cs o,
    closed_applied (f := setSend p) (fun _ hx => ⟨rfl, hx.2⟩) o h⟩

/-- Setting the wait callback sets the wait back pointer and keeps the send one. -/
theorem setWait_spec {cs : Nat → Option Cancellable} {o : Option Nat} (p : Option Nat)
    (halive : ∀ c, o = some c → (cs c).isSome = true) (h : Closed cs) :
    backOf (·.waitBackPointer) (applied cs o (setWait p)) =
        setBack (backOf (·.waitBackPointer) cs) o p ∧
      backOf (·.sendBackPointer) (applied cs o (setWait p)) = backOf (·.sendBackPointer) cs ∧
      Closed (applied cs o (setWait p)) :=
  ⟨backOf_applied (f := setWait p) (fun _ => rfl) halive,
    backOf_applied_same (f := setWait p) (fun _ => rfl) cs o,
    closed_applied (f := setWait p) (fun _ hx => ⟨hx.1, rfl⟩) o h⟩

/-! ### Entries and handlers leave -/

/-- An entry of the queue points to a live cancellable. -/
theorem Inv.alive_entry {s : Connection} (hi : Inv s) {e : OutgoingEntry}
    (hmem : e ∈ s.outgoingQueue) (c : Nat) (hc : e.pcancel = some c) :
    (s.cancellables c).isSome = true :=
  hi.linked.entryCancel e (List.mem_append_left _ hmem) c hc

/-- An entry of the queue is destroyed. -/
theorem Inv.dropEntry {s : Connection} (hi : Inv s) {e : OutgoingEntry} (hmem : e ∈ s.outgoingQueue)
    {queue : List OutgoingEntry} (hqueue : queue = s.outgoingQueue.filter (·.self != e.self)) :
    Inv (Connection.dropEntry { s with outgoingQueue := queue } e) := by
  have halive := hi.alive_entry hmem
  have hnodes : queue.map (fun e => (e.self, e.pcancel)) =
      (sendNodes s).filter fun n => n.1 != e.self := by
    rw [hqueue, sendNodes, List.filter_map]
    rfl
  obtain ⟨hsend, hwait, hclosed⟩ := setSend_spec none halive hi.closures
  show Inv (Connection.modify _ _ (setSend none))
  rw [@modify_eq { s with outgoingQueue := queue } _ (setSend none) halive]
  refine ⟨hi.safe, ?_, ?_, hclosed, fun e' hmem' => ?_, hi.freshId, hi.writing⟩
  · show BackLinked (queue.map _) (backOf _ (applied s.cancellables e.pcancel (setSend none)))
    rw [hsend, hnodes]
    exact hi.sends.erase (mem_sendNodes.mpr ⟨e, hmem, rfl, rfl⟩)
  · show BackLinked (waitNodes s) (backOf _ (applied s.cancellables e.pcancel (setSend none)))
    rw [hwait]
    exact hi.waits
  · have hin : e' ∈ queue := hmem'
    rw [hqueue] at hin
    exact hi.freshSelf e' (List.mem_filter.mp hin).1

/-- A handler is destroyed. -/
theorem Inv.dropHandler {s : Connection} (hi : Inv s) {h : ReplyHandler} (hmem : h ∈ s.outstanding)
    {outstanding : List ReplyHandler} (hout : outstanding = s.outstanding.filter (·.id != h.id)) :
    Inv (Connection.dropHandler { s with outstanding := outstanding } h) := by
  have halive := hi.linked.handlerCancel h hmem
  have hnodes : outstanding.map (fun h => (h.id, h.pcancel)) =
      (waitNodes s).filter fun n => n.1 != h.id := by
    rw [hout, waitNodes, List.filter_map]
    rfl
  obtain ⟨hwait, hsend, hclosed⟩ := setWait_spec none halive hi.closures
  show Inv (Connection.modify _ _ (setWait none))
  rw [@modify_eq { s with outstanding := outstanding } _ (setWait none) halive]
  refine ⟨hi.safe, ?_, ?_, hclosed, hi.freshSelf, fun h' hmem' => ?_, hi.writing⟩
  · show BackLinked (sendNodes s) (backOf _ (applied s.cancellables h.pcancel (setWait none)))
    rw [hsend]
    exact hi.sends
  · show BackLinked (outstanding.map _) (backOf _ (applied s.cancellables h.pcancel (setWait none)))
    rw [hwait, hnodes]
    exact hi.waits.erase (mem_waitNodes.mpr ⟨h, hmem, rfl, rfl⟩)
  · have hin : h' ∈ outstanding := hmem'
    rw [hout] at hin
    exact hi.freshId h' (List.mem_filter.mp hin).1

/-- A closure or a timer finds its entry. -/
theorem eraseEntry_eq {s : Connection} {i : Nat} (hex : ∃ e ∈ s.outgoingQueue, e.self = i) :
    ∃ e ∈ s.outgoingQueue, e.self = i ∧ s.eraseEntry i =
      Connection.dropEntry { s with outgoingQueue := s.outgoingQueue.filter (·.self != i) } e := by
  rw [Connection.eraseEntry]
  cases hfind : s.outgoingQueue.find? (·.self == i) with
  | none =>
    obtain ⟨e, hmem, hself⟩ := hex
    have hnone := List.find?_eq_none.mp hfind e hmem
    rw [hself] at hnone
    exact absurd (beq_self_eq_true i) hnone
  | some e =>
    have hself : e.self = i := by simpa using List.find?_some hfind
    exact ⟨e, List.mem_of_find?_eq_some hfind, hself, rfl⟩

/-- A closure, a timer or a reply finds its handler. -/
theorem eraseHandler_eq {s : Connection} {id : Nat} (hex : ∃ h ∈ s.outstanding, h.id = id) :
    ∃ h ∈ s.outstanding, h.id = id ∧ s.eraseHandler id =
      Connection.dropHandler { s with outstanding := s.outstanding.filter (·.id != id) } h := by
  rw [Connection.eraseHandler]
  cases hfind : s.outstanding.find? (·.id == id) with
  | none =>
    obtain ⟨h, hmem, hid⟩ := hex
    have hnone := List.find?_eq_none.mp hfind h hmem
    rw [hid] at hnone
    exact absurd (beq_self_eq_true id) hnone
  | some h =>
    have hid : h.id = id := by simpa using List.find?_some hfind
    exact ⟨h, List.mem_of_find?_eq_some hfind, hid, rfl⟩

/-- Erasing an entry keeps the invariant. -/
theorem Inv.eraseEntry {s : Connection} (hi : Inv s) {i : Nat}
    (hex : ∃ e ∈ s.outgoingQueue, e.self = i) : Inv (s.eraseEntry i) := by
  obtain ⟨e, hmem, rfl, heq⟩ := eraseEntry_eq hex
  rw [heq]
  exact hi.dropEntry hmem rfl

/-- Erasing a handler keeps the invariant. -/
theorem Inv.eraseHandler {s : Connection} (hi : Inv s) {id : Nat}
    (hex : ∃ h ∈ s.outstanding, h.id = id) : Inv (s.eraseHandler id) := by
  obtain ⟨h, hmem, rfl, heq⟩ := eraseHandler_eq hex
  rw [heq]
  exact hi.dropHandler hmem rfl

/-! ### A call -/

/-- The pointers of a cancellable that no call uses are unset. -/
theorem Inv.unused_back {s : Connection} (hi : Inv s) {c : Nat}
    (halive : (s.cancellables c).isSome = true) (hunused : s.Unused c) :
    backOf (·.sendBackPointer) s.cancellables c = some none ∧
      backOf (·.waitBackPointer) s.cancellables c = some none := by
  obtain ⟨x, hx⟩ := Option.isSome_iff_exists.mp halive
  rw [backOf_eq_some, backOf_eq_some]
  refine ⟨⟨x, hx, ?_⟩, x, hx, ?_⟩
  · rw [Option.eq_none_iff_forall_not_mem]
    intro i hp
    obtain ⟨e, hmem, -, hc⟩ := hi.linked.sendBack c x i hx hp
    exact hunused.1 e hmem hc
  · rw [Option.eq_none_iff_forall_not_mem]
    intro id hp
    obtain ⟨h, hmem, -, hc⟩ := hi.linked.waitBack c x id hx hp
    exact hunused.2 h hmem hc

/-- `send` adds an entry. It leaves the handlers and what points at them. -/
theorem Inv.send {s : Connection} (hi : Inv s) (timeout : Option Bool) {cancel : Option Nat}
    (hcancel : ∀ c, cancel = some c → (s.cancellables c).isSome = true ∧
      backOf (·.sendBackPointer) s.cancellables c = some none) :
    Inv (s.send timeout cancel) ∧ (s.send timeout cancel).outstanding = s.outstanding ∧
      (s.send timeout cancel).messageId = s.messageId ∧
      backOf (·.waitBackPointer) (s.send timeout cancel).cancellables =
        backOf (·.waitBackPointer) s.cancellables := by
  rw [Connection.send]
  split
  · exact ⟨hi, rfl, rfl, rfl⟩
  · have halive : ∀ c, cancel = some c → (s.cancellables c).isSome = true :=
      fun c hc => (hcancel c hc).1
    obtain ⟨hsend, hwait, hclosed⟩ := setSend_spec (some s.nextSelf) halive hi.closures
    dsimp only
    rw [@modify_eq { s with
        outgoingQueue := s.outgoingQueue ++ [⟨s.nextSelf, timeout.isSome, cancel⟩]
        nextSelf := s.nextSelf + 1 } _ _ halive]
    refine ⟨⟨hi.safe, ?_, ?_, hclosed, fun e hmem => ?_, hi.freshId, hi.writing⟩, rfl, rfl, hwait⟩
    · show BackLinked ((s.outgoingQueue ++ [_]).map _)
        (backOf _ (applied s.cancellables cancel (setSend (some s.nextSelf))))
      rw [hsend, List.map_append]
      refine hi.sends.add (fun hin => ?_) fun c hc => (hcancel c hc).2
      obtain ⟨⟨i, o⟩, hmem, rfl⟩ := List.mem_map.mp hin
      obtain ⟨e, hmem, hself, -⟩ := mem_sendNodes.mp hmem
      have hlt := hi.freshSelf e hmem
      rw [hself] at hlt
      exact Nat.lt_irrefl _ hlt
    · show BackLinked (waitNodes s)
        (backOf _ (applied s.cancellables cancel (setSend (some s.nextSelf))))
      rw [hwait]
      exact hi.waits
    · rcases List.mem_append.mp hmem with hmem | hmem
      · exact Nat.lt_succ_of_lt (hi.freshSelf e hmem)
      · rw [List.mem_singleton.mp hmem]
        exact Nat.lt_succ_self _

/-- `wait_for_reply` adds a handler with a new message id. -/
theorem Inv.waitForReply {s : Connection} (hi : Inv s) {id : Nat} (timeout : Option Bool)
    {cancel : Option Nat} (hfresh : ∀ h ∈ s.outstanding, h.id ≠ id) (hid : id < s.messageId)
    (hcancel : ∀ c, cancel = some c → backOf (·.waitBackPointer) s.cancellables c = some none) :
    Inv (s.waitForReply id timeout cancel) := by
  have halive : ∀ c, cancel = some c → (s.cancellables c).isSome = true := by
    intro c hc
    obtain ⟨x, hx, -⟩ := backOf_eq_some.mp (hcancel c hc)
    exact Option.isSome_iff_exists.mpr ⟨x, hx⟩
  have hany : s.outstanding.any (·.id == id) = false := by
    rw [List.any_eq_false]
    exact fun h hmem heq => hfresh h hmem (eq_of_beq heq)
  obtain ⟨hwait, hsend, hclosed⟩ := setWait_spec (some id) halive hi.closures
  rw [Connection.waitForReply, modify_eq _ halive]
  show Inv (if s.outstanding.any (·.id == id) = true then _ else _)
  rw [hany, if_neg Bool.false_ne_true]
  refine ⟨hi.safe, ?_, ?_, hclosed, hi.freshSelf, fun h hmem => ?_, hi.writing⟩
  · show BackLinked (sendNodes s) (backOf _ (applied s.cancellables cancel (setWait (some id))))
    rw [hsend]
    exact hi.sends
  · show BackLinked ((s.outstanding ++ [_]).map _)
      (backOf _ (applied s.cancellables cancel (setWait (some id))))
    rw [hwait, List.map_append]
    refine hi.waits.add (fun hin => ?_) hcancel
    obtain ⟨⟨i, o⟩, hmem, rfl⟩ := List.mem_map.mp hin
    obtain ⟨h, hmem, hself, -⟩ := mem_waitNodes.mp hmem
    exact hfresh h hmem hself
  · rcases List.mem_append.mp hmem with hmem | hmem
    · exact hi.freshId h hmem
    · rw [List.mem_singleton.mp hmem]
      exact hid

/-- A call with a cancellable that is not in use keeps the invariant. -/
theorem Inv.call {s : Connection} (hi : Inv s) (wait : Bool) (timeout : Option Bool)
    {cancel : Option Nat}
    (hcancel : ∀ c ∈ cancel, (s.cancellables c).isSome = true ∧ s.Unused c) :
    Inv (s.call wait timeout cancel) := by
  rw [Connection.call]
  split
  · exact hi
  · have hnext : Inv { s with messageId := s.messageId + 1 } :=
      ⟨hi.safe, hi.sends, hi.waits, hi.closures, hi.freshSelf,
        fun h hmem => Nat.lt_succ_of_lt (hi.freshId h hmem), hi.writing⟩
    have hunset := fun c hc => hi.unused_back (hcancel c hc).1 (hcancel c hc).2
    obtain ⟨hsent, hout, hid, hback⟩ := hnext.send timeout fun c hc =>
      ⟨(hcancel c hc).1, (hunset c hc).1⟩
    dsimp only
    split
    · refine hsent.waitForReply timeout (fun h hmem => ?_) ?_ fun c hc => ?_
      · rw [hout] at hmem
        exact Nat.ne_of_lt (hi.freshId h hmem)
      · rw [hid]
        exact Nat.lt_succ_self _
      · rw [hback]
        exact (hunset c hc).2
    · exact hsent

/-! ### Cancellables -/

/-- After the first closure, the cancellable has the second one alone. -/
theorem Inv.cancelSend {s : Connection} (hi : Inv s) {c : Nat} {x : Cancellable}
    (hx : s.cancellables c = some x) {i : Nat} (hsend : x.cancelSend = some i) :
    Inv (s.eraseEntry i) ∧ (s.eraseEntry i).cancellables c = some (setSend none x) := by
  have hback : x.sendBackPointer = some i := (hi.closures c x hx).1.symm.trans hsend
  obtain ⟨e, hmem, hself, hc⟩ := mem_sendNodes.mp
    ((hi.sends.agree i c).mpr (backOf_eq_some.mpr ⟨x, hx, hback⟩))
  refine ⟨hi.eraseEntry ⟨e, hmem, hself⟩, ?_⟩
  obtain ⟨e', hmem', hself', heq⟩ := eraseEntry_eq ⟨e, hmem, hself⟩
  have hc' : e'.pcancel = some c := (hi.sends.owner_unique
    (mem_sendNodes.mpr ⟨e', hmem', hself', rfl⟩) (mem_sendNodes.mpr ⟨e, hmem, hself, hc⟩))
  rw [heq, Connection.dropEntry, hc']
  simp [Connection.modify, hx, setSend]

/-- After the second closure, the cancellable has no pointer to a handler. -/
theorem Inv.cancelWait {s : Connection} (hi : Inv s) {c : Nat} {x : Cancellable}
    (hx : s.cancellables c = some x) {id : Nat} (hwait : x.cancelWait = some id) :
    Inv (s.eraseHandler id) ∧ (s.eraseHandler id).cancellables c = some (setWait none x) := by
  have hback : x.waitBackPointer = some id := (hi.closures c x hx).2.symm.trans hwait
  obtain ⟨h, hmem, hid, hc⟩ := mem_waitNodes.mp
    ((hi.waits.agree id c).mpr (backOf_eq_some.mpr ⟨x, hx, hback⟩))
  refine ⟨hi.eraseHandler ⟨h, hmem, hid⟩, ?_⟩
  obtain ⟨h', hmem', hid', heq⟩ := eraseHandler_eq ⟨h, hmem, hid⟩
  have hc' : h'.pcancel = some c := (hi.waits.owner_unique
    (mem_waitNodes.mpr ⟨h', hmem', hid', rfl⟩) (mem_waitNodes.mpr ⟨h, hmem, hid, hc⟩))
  rw [heq, Connection.dropHandler, hc']
  simp [Connection.modify, hx, setWait]

/-- Clearing a send callback that is not set changes nothing. -/
theorem setSend_none {x : Cancellable} (h : x.cancelSend = none) (h' : x.sendBackPointer = none) :
    setSend none x = x := by
  rw [setSend, ← h]
  cases x
  cases h'
  cases h
  rfl

/-- Clearing a wait callback that is not set changes nothing. -/
theorem setWait_none {x : Cancellable} (h : x.cancelWait = none) (h' : x.waitBackPointer = none) :
    setWait none x = x := by
  rw [setWait, ← h]
  cases x
  cases h'
  cases h
  rfl

/-- `cancel()` runs the second closure in the state that the first one leaves. -/
theorem cancel_eq {s t : Connection} {c : Nat}
    (ht : ((s.cancellables c).bind (·.cancelSend)).elim s s.eraseEntry = t) :
    s.cancel c = ((t.cancellables c).bind (·.cancelWait)).elim t t.eraseHandler := by
  subst ht
  rw [Connection.cancel]
  cases (s.cancellables c).bind (·.cancelSend) with
  | none =>
    dsimp only [Option.elim_none]
    cases (s.cancellables c).bind (·.cancelWait) with
    | none => rfl
    | some id => rfl
  | some i =>
    dsimp only [Option.elim_some]
    cases ((s.eraseEntry i).cancellables c).bind (·.cancelWait) with
    | none => rfl
    | some id => rfl

/-- `cancel()` leaves its cancellable empty. -/
theorem Inv.cancel {s : Connection} (hi : Inv s) {c : Nat} {x : Cancellable}
    (hx : s.cancellables c = some x) :
    Inv (s.cancel c) ∧ (s.cancel c).cancellables c = some Cancellable.empty := by
  have hfirst : ∃ t, ((s.cancellables c).bind (·.cancelSend)).elim s s.eraseEntry = t ∧
      Inv t ∧ t.cancellables c = some (setSend none x) := by
    rw [hx, Option.bind_some]
    cases hsend : x.cancelSend with
    | none =>
      rw [setSend_none hsend ((hi.closures c x hx).1.symm.trans hsend)]
      exact ⟨s, rfl, hi, hx⟩
    | some i =>
      obtain ⟨hinv, hset⟩ := hi.cancelSend hx hsend
      exact ⟨_, rfl, hinv, hset⟩
  obtain ⟨t, ht, hinv, hset⟩ := hfirst
  rw [cancel_eq ht, hset, Option.bind_some]
  cases hwait : (setSend none x).cancelWait with
  | none =>
    refine ⟨hinv, hset.trans ?_⟩
    rw [← setWait_none hwait ((hinv.closures c _ hset).2.symm.trans hwait)]
    rfl
  | some id => exact hinv.cancelWait hset hwait

/-- Writing one cancellable updates the back pointers at it only. -/
theorem backOf_update (g : Cancellable → Option Nat) (cs : Nat → Option Cancellable) (c : Nat)
    (o : Option Cancellable) :
    backOf g (Function.update cs c o) = Function.update (backOf g cs) c (o.map g) := by
  funext d
  rw [backOf]
  by_cases hdc : d = c
  · subst hdc
    rw [Function.update_self, Function.update_self]
  · rw [Function.update_of_ne hdc, Function.update_of_ne hdc]
    rfl

/-- Writing a cancellable whose callbacks match its back pointers keeps them matched. -/
theorem closed_update {cs : Nat → Option Cancellable} (h : Closed cs) (c : Nat)
    {o : Option Cancellable}
    (ho : ∀ x, o = some x → x.cancelSend = x.sendBackPointer ∧ x.cancelWait = x.waitBackPointer) :
    Closed (Function.update cs c o) := by
  intro d x hd
  by_cases hdc : d = c
  · subst hdc
    rw [Function.update_self] at hd
    exact ho x hd
  · rw [Function.update_of_ne hdc] at hd
    exact h d x hd

/-- Constructing a cancellable keeps the invariant. -/
theorem Inv.construct {s : Connection} (hi : Inv s) {c : Nat} (hc : s.cancellables c = none) :
    Inv { s with cancellables := Function.update s.cancellables c (some Cancellable.empty) } := by
  have hnone : ∀ g : Cancellable → Option Nat, backOf g s.cancellables c = none := by
    intro g
    rw [backOf, hc]
    rfl
  refine ⟨hi.safe, ?_, ?_, closed_update hi.closures c ?_, hi.freshSelf, hi.freshId, hi.writing⟩
  · rw [backOf_update]
    exact hi.sends.construct (hnone _)
  · rw [backOf_update]
    exact hi.waits.construct (hnone _)
  · intro x hx
    cases hx
    exact ⟨rfl, rfl⟩

/-- Destroying a cancellable takes its calls off and keeps the invariant. -/
theorem Inv.destroy {s : Connection} (hi : Inv s) {c : Nat}
    (hc : (s.cancellables c).isSome = true) :
    Inv (s.destroy c) ∧ (s.destroy c).cancellables c = none := by
  obtain ⟨x, hx⟩ := Option.isSome_iff_exists.mp hc
  obtain ⟨hinv, hempty⟩ := hi.cancel hx
  have hunset : ∀ g : Cancellable → Option Nat, g Cancellable.empty = none →
      backOf g (s.cancel c).cancellables c = some none := by
    intro g hg
    rw [backOf, hempty, Option.map_some, hg]
  rw [Connection.destroy]
  refine ⟨⟨hinv.safe, ?_, ?_, closed_update hinv.closures c fun x hx => (nomatch hx),
    hinv.freshSelf, hinv.freshId, hinv.writing⟩, Function.update_self _ _ _⟩
  · rw [backOf_update]
    exact hinv.sends.destroy (hunset _ rfl)
  · rw [backOf_update]
    exact hinv.waits.destroy (hunset _ rfl)

/-- A write through a back pointer that designates an entry of the queue. -/
theorem writeSendBack_eq {s : Connection} {p : Option Nat} (y : Nat)
    (hex : ∀ i, p = some i → ∃ e ∈ s.outgoingQueue, e.self = i) :
    ∃ queue, s.writeSendBack p y = { s with outgoingQueue := queue } ∧
      queue.map (fun e => (e.self, e.pcancel)) = setOwner (sendNodes s) p y ∧
      queue.map (·.self) = s.outgoingQueue.map (·.self) := by
  cases p with
  | none =>
    refine ⟨s.outgoingQueue, rfl, ?_, rfl⟩
    rw [setOwner]
    simp [sendNodes]
  | some i =>
    obtain ⟨e, hmem, hself⟩ := hex i rfl
    have hany : s.outgoingQueue.any (·.self == i) = true :=
      List.any_eq_true.mpr ⟨e, hmem, beq_iff_eq.mpr hself⟩
    refine ⟨_, if_pos hany, ?_, ?_⟩
    · rw [setOwner, sendNodes, List.map_map, List.map_map]
      refine List.map_congr_left fun e' _ => ?_
      by_cases hi : e'.self = i
      · simp [hi]
      · simp [hi, Ne.symm hi]
    · rw [List.map_map]
      refine List.map_congr_left fun e' _ => ?_
      show (if e'.self = i then _ else e' : OutgoingEntry).self = e'.self
      split <;> rfl

/-- A write through a back pointer that designates an outstanding handler. -/
theorem writeWaitBack_eq {s : Connection} {p : Option Nat} (y : Nat)
    (hex : ∀ id, p = some id → ∃ h ∈ s.outstanding, h.id = id) :
    ∃ outstanding, s.writeWaitBack p y = { s with outstanding := outstanding } ∧
      outstanding.map (fun h => (h.id, h.pcancel)) = setOwner (waitNodes s) p y ∧
      outstanding.map (·.id) = s.outstanding.map (·.id) := by
  cases p with
  | none =>
    refine ⟨s.outstanding, rfl, ?_, rfl⟩
    rw [setOwner]
    simp [waitNodes]
  | some id =>
    obtain ⟨h, hmem, hid⟩ := hex id rfl
    have hany : s.outstanding.any (·.id == id) = true :=
      List.any_eq_true.mpr ⟨h, hmem, beq_iff_eq.mpr hid⟩
    refine ⟨_, if_pos hany, ?_, ?_⟩
    · rw [setOwner, waitNodes, List.map_map, List.map_map]
      refine List.map_congr_left fun h' _ => ?_
      by_cases hi : h'.id = id
      · simp [hi]
      · simp [hi, Ne.symm hi]
    · rw [List.map_map]
      refine List.map_congr_left fun h' _ => ?_
      show (if h'.id = id then _ else h' : ReplyHandler).id = h'.id
      split <;> rfl

/-- The bound of identities follows when the identities are the same. -/
theorem lt_of_map_eq {α : Type} {f : α → Nat} {xs ys : List α} {n : Nat} (h : xs.map f = ys.map f)
    (hlt : ∀ y ∈ ys, f y < n) : ∀ x ∈ xs, f x < n := by
  intro x hmem
  have hin : f x ∈ ys.map f := h ▸ List.mem_map_of_mem hmem
  obtain ⟨y, hy, heq⟩ := List.mem_map.mp hin
  rw [← heq]
  exact hlt y hy

/-- Moving a cancellable to a new place keeps the invariant. -/
theorem Inv.moveTo {s : Connection} (hi : Inv s) {x y : Nat}
    (hx : (s.cancellables x).isSome = true) (hy : s.cancellables y = none) : Inv (s.moveTo x y) := by
  obtain ⟨c, hc⟩ := Option.isSome_iff_exists.mp hx
  have hlinked := hi.linked
  obtain ⟨queue, hqueue, hsendNodes, hselves⟩ := @writeSendBack_eq s c.sendBackPointer y
    fun i hp => (hlinked.sendClosure x c i hc ((hi.closures x c hc).1.trans hp))
  obtain ⟨outstanding, hout, hwaitNodes, hids⟩ :=
    @writeWaitBack_eq { s with outgoingQueue := queue } c.waitBackPointer y
      fun id hp => (hlinked.waitClosure x c id hc ((hi.closures x c hc).2.trans hp))
  have hmove : s.moveTo x y = { s with
      outgoingQueue := queue
      outstanding := outstanding
      cancellables := Function.update (Function.update s.cancellables y (some c)) x
        (some Cancellable.empty) } := by
    rw [Connection.moveTo]
    simp only [hc]
    rw [hqueue, hout]
  have hnone : ∀ g : Cancellable → Option Nat, backOf g s.cancellables y = none := by
    intro g
    rw [backOf, hy]
    rfl
  have hback : ∀ g : Cancellable → Option Nat, backOf g s.cancellables x = some (g c) := by
    intro g
    rw [backOf, hc]
    rfl
  rw [hmove]
  refine ⟨hi.safe, ?_, ?_, ?_, lt_of_map_eq hselves hi.freshSelf, lt_of_map_eq hids hi.freshId,
    hi.writing⟩
  · show BackLinked (queue.map _) _
    rw [hsendNodes, backOf_update, backOf_update]
    exact hi.sends.move (hback _) (hnone _)
  · show BackLinked (outstanding.map _) _
    rw [hwaitNodes, backOf_update, backOf_update]
    exact hi.waits.move (hback _) (hnone _)
  · refine closed_update (closed_update hi.closures y fun d hd => ?_) x fun d hd => ?_
    · cases hd
      exact hi.closures x c hc
    · cases hd
      exact ⟨rfl, rfl⟩

/-- A write through `pcancel` destroys no cancellable. -/
theorem alive_modify {s : Connection} {c : Nat} (o : Option Nat) (f : Cancellable → Cancellable)
    (hc : (s.cancellables c).isSome = true) : ((s.modify o f).cancellables c).isSome = true := by
  cases o with
  | none => exact hc
  | some d =>
    rw [Connection.modify]
    cases hd : s.cancellables d with
    | none => exact hc
    | some x =>
      show (Function.update s.cancellables d (some (f x)) c).isSome = true
      by_cases hcd : c = d
      · rw [hcd, Function.update_self]
        rfl
      · rw [Function.update_of_ne hcd]
        exact hc

/-- Erasing an entry destroys no cancellable. -/
theorem alive_eraseEntry {s : Connection} {c : Nat} (i : Nat)
    (hc : (s.cancellables c).isSome = true) : ((s.eraseEntry i).cancellables c).isSome = true := by
  rw [Connection.eraseEntry]
  split
  · exact alive_modify _ _ hc
  · exact hc

/-- Erasing a handler destroys no cancellable. -/
theorem alive_eraseHandler {s : Connection} {c : Nat} (id : Nat)
    (hc : (s.cancellables c).isSome = true) : ((s.eraseHandler id).cancellables c).isSome = true := by
  rw [Connection.eraseHandler]
  split
  · exact alive_modify _ _ hc
  · exact hc

/-- Cancelling destroys no cancellable. -/
theorem alive_cancel {s : Connection} {c : Nat} (d : Nat) (hc : (s.cancellables c).isSome = true) :
    ((s.cancel d).cancellables c).isSome = true := by
  have hfirst : ∃ t, ((s.cancellables d).bind (·.cancelSend)).elim s s.eraseEntry = t ∧
      (t.cancellables c).isSome = true := by
    cases (s.cancellables d).bind (·.cancelSend) with
    | none => exact ⟨_, rfl, hc⟩
    | some i => exact ⟨_, rfl, alive_eraseEntry i hc⟩
  obtain ⟨t, ht, halive⟩ := hfirst
  rw [cancel_eq ht]
  cases (t.cancellables d).bind (·.cancelWait) with
  | none => exact halive
  | some id => exact alive_eraseHandler id halive

/-- Assigning one live cancellable to another keeps the invariant. -/
theorem Inv.assign {s : Connection} (hi : Inv s) {x y : Nat}
    (hx : (s.cancellables x).isSome = true) (hy : (s.cancellables y).isSome = true) :
    Inv (s.assign x y) := by
  rw [Connection.assign]
  split
  · exact hi
  · rename_i hxy
    obtain ⟨hinv, hnone⟩ := hi.destroy hy
    refine hinv.moveTo ?_ hnone
    show (Function.update (s.cancel y).cancellables y none x).isSome = true
    rw [Function.update_of_ne hxy]
    exact alive_cancel y hx

/-! ### The end of the connection -/

/-- Writing a cancellable does not look at the queue. -/
theorem modify_queue (s : Connection) (queue : List OutgoingEntry) (o : Option Nat)
    (f : Cancellable → Cancellable) : Connection.modify { s with outgoingQueue := queue } o f =
      { s.modify o f with outgoingQueue := queue } := by
  cases o with
  | none => rfl
  | some c => cases hc : s.cancellables c <;> simp [Connection.modify, hc]

/-- Writing a cancellable does not look at the outstanding calls. -/
theorem modify_outstanding (s : Connection) (outstanding : List ReplyHandler) (o : Option Nat)
    (f : Cancellable → Cancellable) : Connection.modify { s with outstanding := outstanding } o f =
      { s.modify o f with outstanding := outstanding } := by
  cases o with
  | none => rfl
  | some c => cases hc : s.cancellables c <;> simp [Connection.modify, hc]

/-- The first of a list with distinct identities is filtered out. -/
theorem filter_head {α : Type} {f : α → Nat} {x : α} {xs : List α} (h : ((x :: xs).map f).Nodup) :
    xs = (x :: xs).filter (f · != f x) := by
  rw [List.filter_cons_of_neg (by simp)]
  symm
  apply List.filter_eq_self.mpr
  intro y hmem
  rw [bne_iff_ne]
  intro heq
  exact (List.nodup_cons.mp h).1 (List.mem_map.mpr ⟨y, hmem, heq⟩)

/-- No two entries of the queue have one identity. -/
theorem Inv.selves {s : Connection} (hi : Inv s) : (s.outgoingQueue.map (·.self)).Nodup := by
  have hnodup := hi.sends.nodup
  rw [sendNodes, List.map_map] at hnodup
  exact hnodup

/-- No two outstanding calls have one id. -/
theorem Inv.ids {s : Connection} (hi : Inv s) : (s.outstanding.map (·.id)).Nodup := by
  have hnodup := hi.waits.nodup
  rw [waitNodes, List.map_map] at hnodup
  exact hnodup

/-- Clearing the queue, entry by entry, keeps the invariant. -/
theorem Inv.clearQueue {s : Connection} (hi : Inv s) :
    Inv (s.outgoingQueue.foldl Connection.dropEntry { s with outgoingQueue := [] }) := by
  generalize hqueue : s.outgoingQueue = queue
  have hs : s = { s with outgoingQueue := queue } := by rw [← hqueue]
  rw [hs] at hi
  clear hs hqueue
  induction queue generalizing s with
  | nil => exact hi
  | cons e queue ih =>
    have hdrop : Inv (Connection.dropEntry { s with outgoingQueue := queue } e) :=
      @Inv.dropEntry { s with outgoingQueue := e :: queue } hi e List.mem_cons_self queue
        (filter_head hi.selves)
    rw [Connection.dropEntry, modify_queue] at hdrop
    rw [List.foldl_cons, Connection.dropEntry, modify_queue]
    exact ih hdrop

/-- Clearing the outstanding calls, one by one, keeps the invariant. -/
theorem Inv.clearOutstanding {s : Connection} (hi : Inv s) :
    Inv (s.outstanding.foldl Connection.dropHandler { s with outstanding := [] }) := by
  generalize hout : s.outstanding = outstanding
  have hs : s = { s with outstanding := outstanding } := by rw [← hout]
  rw [hs] at hi
  clear hs hout
  induction outstanding generalizing s with
  | nil => exact hi
  | cons h outstanding ih =>
    have hdrop : Inv (Connection.dropHandler { s with outstanding := outstanding } h) :=
      @Inv.dropHandler { s with outstanding := h :: outstanding } hi h List.mem_cons_self outstanding
        (filter_head hi.ids)
    rw [Connection.dropHandler, modify_outstanding] at hdrop
    rw [List.foldl_cons, Connection.dropHandler, modify_outstanding]
    exact ih hdrop

/-! ### All events -/

/-- A new connection meets the invariant. -/
theorem create_inv : Inv create := by
  refine ⟨rfl, ⟨List.nodup_nil, fun i c => ?_⟩, ⟨List.nodup_nil, fun i c => ?_⟩, ?_, ?_, ?_, ?_⟩
  all_goals simp [sendNodes, waitNodes, backOf, create, Closed]

/-- An entry without a cancellable is taken. -/
theorem Inv.pop {s t : Connection} (hi : Inv s) (hok : s.Detached .pop) (hstep : s.pop = some t) :
    Inv t := by
  rw [Connection.pop] at hstep
  split at hstep
  · rename_i e queue hwriting hqueue
    have hnone : e.pcancel = none := hok e (by rw [hqueue]; rfl)
    rw [hnone] at hstep
    cases hstep
    have hsends := hi.sends
    rw [sendNodes, hqueue, List.map_cons, hnone] at hsends
    refine ⟨hi.safe, hsends.tail, hi.waits, hi.closures, fun e' hmem => ?_, hi.freshId,
      fun d hd => ?_⟩
    · refine Nat.lt_succ_of_lt (hi.freshSelf e' ?_)
      rw [hqueue]
      exact List.mem_cons_of_mem _ hmem
    · cases hd
      rfl
  · cases hstep

/-- Every step keeps the invariant, as long as a cancellable is detached before it is used again. -/
theorem Inv.step {s t : Connection} {e : Event} (hi : Inv s) (hok : s.Detached e)
    (hstep : s.step e = some t) : Inv t := by
  cases e with
  | construct c =>
    obtain ⟨hc, heq⟩ := Option.ite_none_right_eq_some.mp hstep
    cases heq
    exact hi.construct hc
  | move x y =>
    obtain ⟨⟨hx, hy⟩, heq⟩ := Option.ite_none_right_eq_some.mp hstep
    cases heq
    exact hi.moveTo hx hy
  | assign x y =>
    obtain ⟨⟨hx, hy⟩, heq⟩ := Option.ite_none_right_eq_some.mp hstep
    cases heq
    exact hi.assign hx hy
  | destroy c =>
    obtain ⟨hc, heq⟩ := Option.ite_none_right_eq_some.mp hstep
    cases heq
    exact (hi.destroy hc).1
  | cancel c =>
    obtain ⟨hc, heq⟩ := Option.ite_none_right_eq_some.mp hstep
    cases heq
    obtain ⟨x, hx⟩ := Option.isSome_iff_exists.mp hc
    exact (hi.cancel hx).1
  | call wait timeout cancel =>
    obtain ⟨hcancel, heq⟩ := Option.ite_none_right_eq_some.mp hstep
    cases heq
    exact hi.call wait timeout hcancel
  | pop => exact hi.pop hok hstep
  | written =>
    obtain ⟨d, hd, rfl⟩ := Option.map_eq_some_iff.mp hstep
    -- An entry that is being written has no cancellation object, so nothing points back to it.
    rw [Connection.dropEntry, hi.writing d hd]
    exact ⟨hi.safe, hi.sends, hi.waits, hi.closures, hi.freshSelf, hi.freshId,
      fun d hd => (nomatch hd)⟩
  | sendTimer i =>
    obtain ⟨hany, heq⟩ := Option.ite_none_right_eq_some.mp hstep
    cases heq
    obtain ⟨e, hmem, he⟩ := List.any_eq_true.mp hany
    rw [Bool.and_eq_true, beq_iff_eq] at he
    exact hi.eraseEntry ⟨e, hmem, he.1⟩
  | waitTimer id =>
    obtain ⟨hany, heq⟩ := Option.ite_none_right_eq_some.mp hstep
    cases heq
    obtain ⟨h, hmem, hh⟩ := List.any_eq_true.mp hany
    rw [Bool.and_eq_true, beq_iff_eq] at hh
    exact hi.eraseHandler ⟨h, hmem, hh.1⟩
  | reply id =>
    obtain ⟨hany, heq⟩ := Option.ite_none_right_eq_some.mp hstep
    cases heq
    obtain ⟨h, hmem, hh⟩ := List.any_eq_true.mp hany
    exact hi.eraseHandler ⟨h, hmem, beq_iff_eq.mp hh⟩
  | fails =>
    cases hstep
    exact ⟨hi.safe, hi.sends, hi.waits, hi.closures, hi.freshSelf, hi.freshId, hi.writing⟩
  | clearQueue =>
    obtain ⟨-, heq⟩ := Option.ite_none_right_eq_some.mp hstep
    cases heq
    exact hi.clearQueue
  | clearOutstanding =>
    obtain ⟨-, heq⟩ := Option.ite_none_right_eq_some.mp hstep
    cases heq
    exact hi.clearOutstanding

/-- After an entry with a cancellable was taken, the back pointer of the cancellable designates
nothing. -/
theorem detached_of_linked {s t : Connection} {e : Event} (hi : Inv s) (hstep : s.step e = some t)
    (ht : t.Linked) : s.Detached e := by
  cases e with
  | pop =>
    intro e he
    rw [Option.eq_none_iff_forall_not_mem]
    intro c hc
    rw [Connection.step, Connection.pop] at hstep
    split at hstep
    · rename_i d queue hwriting hqueue
      rw [hqueue] at he
      obtain rfl : d = e := Option.some.inj he
      have hmem : d ∈ s.outgoingQueue := by
        rw [hqueue]
        exact List.mem_cons_self
      obtain ⟨x, hx, hback⟩ := backOf_eq_some.mp
        ((hi.sends.agree d.self c).mp (mem_sendNodes.mpr ⟨d, hmem, rfl, hc⟩))
      have hset : Connection.Linked { s with
          outgoingQueue := queue
          writing := some { d with self := s.nextSelf, timer := false }
          nextSelf := s.nextSelf + 1
          cancellables :=
            Function.update s.cancellables c (some { x with cancelSend := none }) } := by
        cases hstep
        rw [hc] at ht
        simp only [Connection.modify, hx] at ht
        rw [hc]
        exact ht
      obtain ⟨e, hin, hself, -⟩ := hset.sendBack c _ d.self (Function.update_self _ _ _) hback
      rcases List.mem_append.mp hin with hin | hin
      · have hselves := hi.selves
        rw [hqueue] at hselves
        exact (List.nodup_cons.mp hselves).1 (List.mem_map.mpr ⟨e, hin, hself⟩)
      · -- the entry that is written is a new object
        have hlt := hi.freshSelf d hmem
        rw [← hself, List.mem_singleton.mp hin] at hlt
        exact Nat.lt_irrefl _ hlt
    · cases hstep
  | _ => exact trivial

/-- In every run, the pointers and closures are right exactly if no entry with a cancellable is taken
out of the queue. -/
theorem linked_iff_detached (events : List Event) :
    Always Connection.step Connection.Linked create events ↔
      Guarded Connection.step Connection.Detached create events :=
  always_iff_guarded_of_inv Inv (fun _ h => h.linked) (fun _ _ _ hi hok hstep => hi.step hok hstep)
    (fun _ _ _ hi hstep ht => detached_of_linked hi hstep ht) create_inv events

/-- In such a run no object is used that is gone. -/
theorem defined_of_detached {events : List Event}
    (h : Guarded Connection.step Connection.Detached create events) :
    Always Connection.step (fun s => s.undefined = false) create events :=
  always_of_guarded Inv (fun _ hi => hi.safe) (fun _ _ _ hi hok hstep => hi.step hok hstep)
    create_inv h

/-- A call with a cancellable, whose message is sent. -/
theorem sent_entry_not_linked :
    ¬ ∀ events : List Event, Always Connection.step Connection.Linked create events := by
  intro h
  have hlast := (h [.construct 0, .call true none (some 0), .pop]).last rfl
  obtain ⟨e, hmem, hself, -⟩ := hlast.sendBack 0 _ 0 rfl rfl
  rw [List.mem_singleton.mp hmem] at hself
  cases hself

end Netstar.Proofs.Rpc.BackPointers
