import Mathlib.Data.List.Nodup
import Netstar.Lib.Run
import Netstar.Spec.Rpc.Client

/-!
# `Netstar.Proofs.Rpc.Client`: each call is resolved once

`Waiting` is the invariant of `_outstanding`, the reply promises and the closures in `cancel_wait`.
`Sending` is that of the queue, the send loop and the closures in `cancel_send`. An event changes one
of the two sides and leaves the other as it is, except for a call, which adds to both.

A handler leaves `_outstanding` with its promise: `settle` is the state after that, and what a timer,
a cancellable, a reply and the end of the connection do are cases of it. The exception is an error
reply that cannot be unmarshalled, which drops the promise without setting it.
-/

set_option autoImplicit false

namespace Netstar.Proofs.Rpc.Client

open Netstar.Lib
open Netstar.Spec.Rpc
open Netstar.Spec.Rpc.Client

variable {V : Type}

/-! ### The two sides -/

/-- The handlers, the reply promises and the closures that cancel a wait. -/
structure Waiting (s : Client V) : Prop where
  known : ∀ h ∈ s.outstanding, ∃ c, s.calls[h.call]? = some c ∧ c.id = some h.id ∧ c.wait = true ∧
    c.unmarshall = h.unmarshall
  ids : (s.outstanding.map (·.id)).Nodup
  unique : ∀ (n m : Nat) (c d : Call V) (i : Int), s.calls[n]? = some c → s.calls[m]? = some d → c.id = some i →
    d.id = some i → n = m
  fresh : ∀ (n : Nat) (c : Call V) (i : Int), s.calls[n]? = some c → c.id = some i → 0 < i ∧ i < s.messageId
  exactly : ∀ n, (∃ h ∈ s.outstanding, h.call = n) ↔ s.Waits n ∧ n ∉ s.replies.map Prod.fst
  once : (s.replies.map Prod.fst).Nodup
  bound : ∀ n ∈ s.replies.map Prod.fst, n < s.calls.length
  closures : ∀ n i, (s.cancels n).cancelWait = some i →
    ∃ h ∈ s.outstanding, h.call = n ∧ h.id = i ∧ h.pcancel = true
  first : (s.answered.map Prod.fst).Nodup
  gone : ∀ n ∈ s.answered.map Prod.fst, n < s.calls.length ∧ ∀ h ∈ s.outstanding, h.call ≠ n
  answers : ∀ r ∈ s.replies, s.Answers r.1 r.2
  messageId : 0 < s.messageId

/-- The messages that are not sent yet. -/
def pending (s : Client V) : List OutgoingEntry :=
  match s.sendLoop with
  | .writing d => d :: s.outgoingQueue
  | _ => s.outgoingQueue

/-- The calls of these messages. -/
def pendingCalls (s : Client V) : List Nat := (pending s).map (·.call)

/-- The messages, their promises and the closures that cancel a message. -/
structure Sending (s : Client V) : Prop where
  calls : (pendingCalls s).Nodup
  exactly : ∀ n, n ∈ pendingCalls s ↔ s.Accepted n ∧ n ∉ s.sends
  once : s.sends.Nodup
  bound : ∀ n ∈ s.sends, n < s.calls.length
  closures : ∀ n, (s.cancels n).cancelSend = true →
    ∃ e ∈ s.outgoingQueue, e.call = n ∧ e.pcancel = true

/-- What follows from where the connection is. -/
structure Phased (s : Client V) : Prop where
  safe : s.crashed = false
  error : s.phase = .stopping ∨ s.phase = .closing ∨ s.phase = .stopped → s.error = true
  idle : s.phase = .connecting → s.sendLoop = .idle
  sent : s.phase = .closing ∨ s.phase = .stopped → pending s = []
  cleared : s.phase = .stopped → s.outstanding = []
  late : ∀ (n : Nat) (c : Call V), s.calls[n]? = some c → c.late = true → c.id = none ∧ (n, .closed) ∈ s.replies
  rejected : ∀ (n : Nat) (c : Call V), s.calls[n]? = some c → c.id = none → n ∈ s.replies.map Prod.fst

/-- The two sides and the phase. -/
structure Inv (s : Client V) : Prop where
  waiting : Waiting s
  sending : Sending s
  phased : Phased s

/-- The invariant says that the calls are resolved right. -/
theorem Inv.correct {s : Client V} (h : Inv s) : s.Correct := by
  refine ⟨h.phased.safe, h.waiting.once, h.sending.once, h.waiting.first, h.waiting.answers,
    h.waiting.exactly, ?_, fun n c hc hlate => (h.phased.late n c hc hlate).2⟩
  intro hstopped
  have hempty := h.phased.cleared hstopped
  refine ⟨hempty, fun n c hc => ⟨fun hwait => ?_, fun hid => ?_⟩⟩
  · cases hid : c.id with
    | none => exact h.phased.rejected n c hc hid
    | some i =>
      by_contra hnot
      obtain ⟨h', hmem, -⟩ := (h.waiting.exactly n).mpr ⟨⟨c, hc, hwait, by rw [hid]; rfl⟩, hnot⟩
      rw [hempty] at hmem
      cases hmem
  · by_contra hnot
    have hmem := (h.sending.exactly n).mpr ⟨⟨c, hc, hid⟩, hnot⟩
    rw [pendingCalls, h.phased.sent (.inr hstopped)] at hmem
    cases hmem

/-! ### What an event leaves as it is -/

/-- The side of the replies is the same. -/
structure SameReplies (s t : Client V) : Prop where
  calls : t.calls = s.calls
  messageId : t.messageId = s.messageId
  outstanding : t.outstanding = s.outstanding
  replies : t.replies = s.replies
  answered : t.answered = s.answered
  cancelWait : ∀ n, (t.cancels n).cancelWait = (s.cancels n).cancelWait

/-- The side of the messages is the same. -/
structure SameSends (s t : Client V) : Prop where
  calls : t.calls = s.calls
  outgoingQueue : t.outgoingQueue = s.outgoingQueue
  sendLoop : t.sendLoop = s.sendLoop
  sends : t.sends = s.sends
  cancelSend : ∀ n, (t.cancels n).cancelSend = (s.cancels n).cancelSend

/-- The part about the waiting calls depends on the replies only. -/
theorem Waiting.same {s t : Client V} (h : Waiting s) (hst : SameReplies s t) : Waiting t := by
  obtain ⟨hcalls, hid, hout, hreplies, hanswered, hcancel⟩ := hst
  have hwaits : ∀ n, t.Waits n ↔ s.Waits n := by
    intro n
    rw [Waits, Waits, hcalls]
  have hanswers : ∀ n o, t.Answers n o ↔ s.Answers n o := by
    intro n o
    cases o with
    | value v => rw [Answers, Answers, hcalls, hanswered]
    | remote e => rw [Answers, Answers, hcalls, hanswered]
    | timeout => exact Iff.rfl
    | canceled => exact Iff.rfl
    | closed => exact Iff.rfl
  constructor
  · rw [hout, hcalls]
    exact h.known
  · rw [hout]
    exact h.ids
  · rw [hcalls]
    exact h.unique
  · rw [hcalls, hid]
    exact h.fresh
  · intro n
    rw [hout, hreplies, hwaits]
    exact h.exactly n
  · rw [hreplies]
    exact h.once
  · rw [hreplies, hcalls]
    exact h.bound
  · intro n i hn
    rw [hcancel] at hn
    rw [hout]
    exact h.closures n i hn
  · rw [hanswered]
    exact h.first
  · rw [hanswered, hcalls, hout]
    exact h.gone
  · intro r hr
    rw [hreplies] at hr
    exact (hanswers _ _).mpr (h.answers r hr)
  · rw [hid]
    exact h.messageId

/-- The pending sends depend on the send queue only. -/
theorem pending_same {s t : Client V} (hst : SameSends s t) : pending t = pending s := by
  rw [pending, pending, hst.sendLoop, hst.outgoingQueue]

/-- The part about the sends depends on the send queue only. -/
theorem Sending.same {s t : Client V} (h : Sending s) (hst : SameSends s t) : Sending t := by
  have hpending : pendingCalls t = pendingCalls s :=
    congrArg (List.map OutgoingEntry.call) (pending_same hst)
  constructor
  · rw [hpending]
    exact h.calls
  · intro n
    rw [hpending, Accepted, hst.calls, hst.sends]
    exact h.exactly n
  · rw [hst.sends]
    exact h.once
  · rw [hst.sends, hst.calls]
    exact h.bound
  · intro n hn
    rw [hst.cancelSend] at hn
    rw [hst.outgoingQueue]
    exact h.closures n hn

/-! ### A handler leaves with its promise -/

/-- The handler `h` is gone, its promise is set to `o`, and the closure of its cancellable is reset. A
frame can have found it. -/
structure Settled (s t : Client V) (h : Handler V) (o : Outcome V) : Prop where
  calls : t.calls = s.calls
  messageId : t.messageId = s.messageId
  outstanding : t.outstanding = s.outstanding.filter (·.id != h.id)
  replies : t.replies = s.replies ++ [(h.call, o)]
  cancels : ∀ n, (t.cancels n).cancelWait =
    if n = h.call ∧ h.pcancel = true then none else (s.cancels n).cancelWait
  answered : t.answered = s.answered ∨
    ∃ id payload, t.answered = s.answered ++ [(h.call, id, payload)]

/-- Outstanding calls with one id are one call. -/
theorem Waiting.eq_of_id {s : Client V} (hw : Waiting s) {h h' : Handler V}
    (hmem : h ∈ s.outstanding) (hmem' : h' ∈ s.outstanding) (hid : h.id = h'.id) : h = h' :=
  List.inj_on_of_nodup_map hw.ids hmem hmem' hid

/-- Different outstanding calls have different ids. -/
theorem Waiting.id_ne {s : Client V} (hw : Waiting s) {h h' : Handler V} (hmem : h ∈ s.outstanding)
    (hmem' : h' ∈ s.outstanding) (hcall : h'.call ≠ h.call) : h'.id ≠ h.id := by
  intro hid
  rw [hw.eq_of_id hmem' hmem hid] at hcall
  exact hcall rfl

/-- Two handlers of one call are one. -/
theorem Waiting.eq_of_call {s : Client V} (hw : Waiting s) {h h' : Handler V}
    (hmem : h ∈ s.outstanding) (hmem' : h' ∈ s.outstanding) (hcall : h.call = h'.call) : h = h' := by
  obtain ⟨c, hc, hid, -⟩ := hw.known h hmem
  obtain ⟨c', hc', hid', -⟩ := hw.known h' hmem'
  rw [hcall, hc'] at hc
  cases hc
  rw [hid] at hid'
  exact hw.eq_of_id hmem hmem' (Option.some.inj hid')

/-- Erasing an id leaves the calls with other ids. -/
theorem mem_filter_id {hs : List (Handler V)} {i : Int} {h : Handler V} :
    h ∈ hs.filter (·.id != i) ↔ h ∈ hs ∧ h.id ≠ i := by
  simp

/-- Another answer, or more frames, leave the answers as they are. -/
theorem Answers.mono {s t : Client V} {n : Nat} {o : Outcome V} (h : s.Answers n o)
    (hcalls : ∀ c, s.calls[n]? = some c → t.calls[n]? = some c)
    (hanswered : ∀ a ∈ s.answered, a ∈ t.answered) : t.Answers n o := by
  cases o with
  | value v =>
    obtain ⟨c, id, payload, hc, hid, hmem, hv⟩ := h
    exact ⟨c, id, payload, hcalls c hc, hid, hanswered _ hmem, hv⟩
  | remote e =>
    obtain ⟨c, id, payload, hc, hid, hmem, he⟩ := h
    exact ⟨c, id, payload, hcalls c hc, hid, hanswered _ hmem, he⟩
  | timeout => exact trivial
  | canceled => exact trivial
  | closed => exact trivial

/-- Settling an outstanding call with an answer that it may get keeps the part about the waiting
calls. -/
theorem Waiting.settled {s t : Client V} {h : Handler V} {o : Outcome V} (hw : Waiting s)
    (hmem : h ∈ s.outstanding) (hst : Settled s t h o) (ho : t.Answers h.call o) : Waiting t := by
  have hcall : s.Waits h.call ∧ h.call ∉ s.replies.map Prod.fst :=
    (hw.exactly h.call).mp ⟨h, hmem, rfl⟩
  have hlt : h.call < s.calls.length := by
    obtain ⟨c, hc, -⟩ := hw.known h hmem
    exact (List.getElem?_eq_some_iff.mp hc).1
  have hreplies : t.replies.map Prod.fst = s.replies.map Prod.fst ++ [h.call] := by
    rw [hst.replies, List.map_append]
    rfl
  have hin : ∀ h', h' ∈ t.outstanding ↔ h' ∈ s.outstanding ∧ h'.id ≠ h.id := by
    intro h'
    rw [hst.outstanding, mem_filter_id]
  have hanswered : ∀ a ∈ s.answered, a ∈ t.answered := by
    intro a ha
    rcases hst.answered with heq | ⟨id, payload, heq⟩
    · rw [heq]
      exact ha
    · rw [heq]
      exact List.mem_append_left _ ha
  constructor
  · intro h' hmem'
    rw [hst.calls]
    exact hw.known h' ((hin h').mp hmem').1
  · rw [hst.outstanding]
    exact hw.ids.sublist (List.filter_sublist.map _)
  · rw [hst.calls]
    exact hw.unique
  · rw [hst.calls, hst.messageId]
    exact hw.fresh
  · intro n
    rw [hreplies, Waits, hst.calls, ← Waits, List.mem_append, List.mem_singleton, not_or]
    constructor
    · rintro ⟨h', hmem', rfl⟩
      obtain ⟨hmem', hid⟩ := (hin h').mp hmem'
      obtain ⟨hwaits, hnot⟩ := (hw.exactly h'.call).mp ⟨h', hmem', rfl⟩
      refine ⟨hwaits, hnot, fun heq => hid ?_⟩
      rw [hw.eq_of_call hmem' hmem heq]
    · rintro ⟨hwaits, hnot, hne⟩
      obtain ⟨h', hmem', rfl⟩ := (hw.exactly n).mpr ⟨hwaits, hnot⟩
      exact ⟨h', (hin h').mpr ⟨hmem', hw.id_ne hmem hmem' hne⟩, rfl⟩
  · rw [hreplies]
    exact List.nodup_append'.mpr ⟨hw.once, List.nodup_singleton _, by simpa using hcall.2⟩
  · intro n hn
    rw [hreplies, List.mem_append, List.mem_singleton] at hn
    rw [hst.calls]
    rcases hn with hn | rfl
    · exact hw.bound n hn
    · exact hlt
  · intro n i hn
    rw [hst.cancels] at hn
    split at hn
    · cases hn
    · rename_i hnot
      obtain ⟨h', hmem', rfl, hid, hp⟩ := hw.closures n i hn
      refine ⟨h', (hin h').mpr ⟨hmem', fun heq => hnot ?_⟩, rfl, hid, hp⟩
      -- a handler with the same id is `h`
      rw [← hw.eq_of_id hmem' hmem heq]
      exact ⟨rfl, hp⟩
  · rcases hst.answered with heq | ⟨id, payload, heq⟩
    · rw [heq]
      exact hw.first
    · rw [heq, List.map_append]
      refine List.nodup_append'.mpr ⟨hw.first, List.nodup_singleton _, ?_⟩
      intro n hn hsingle
      obtain rfl : n = h.call := List.mem_singleton.mp hsingle
      exact (hw.gone _ hn).2 h hmem rfl
  · intro n hn
    have hcases : n ∈ s.answered.map Prod.fst ∨ n = h.call := by
      rcases hst.answered with heq | ⟨id, payload, heq⟩
      · rw [heq] at hn
        exact .inl hn
      · rw [heq, List.map_append, List.mem_append] at hn
        exact hn.imp_right List.mem_singleton.mp
    rw [hst.calls]
    rcases hcases with hn | rfl
    · exact ⟨(hw.gone n hn).1, fun h' hmem' => (hw.gone n hn).2 h' ((hin h').mp hmem').1⟩
    · refine ⟨hlt, fun h' hmem' heq => ?_⟩
      obtain ⟨hmem', hid⟩ := (hin h').mp hmem'
      exact hid (by rw [hw.eq_of_call hmem' hmem heq])
  · intro r hr
    rw [hst.replies, List.mem_append, List.mem_singleton] at hr
    rcases hr with hr | rfl
    · exact Answers.mono (hw.answers r hr) (fun c hc => by rw [hst.calls]; exact hc) hanswered
    · exact ho
  · rw [hst.messageId]
    exact hw.messageId

/-- The phase does not change, and there are no new calls, messages or handlers. -/
theorem Phased.mono {s t : Client V} (h : Phased s) (hsafe : t.crashed = s.crashed)
    (herror : s.error = true → t.error = true) (hphase : t.phase = s.phase)
    (hidle : s.sendLoop = .idle → t.sendLoop = .idle)
    (hsent : pending s = [] → pending t = []) (hout : s.outstanding = [] → t.outstanding = [])
    (hcalls : t.calls = s.calls) (hreplies : ∀ r ∈ s.replies, r ∈ t.replies) : Phased t := by
  constructor
  · rw [hsafe]
    exact h.safe
  · rw [hphase]
    exact fun hp => herror (h.error hp)
  · rw [hphase]
    exact fun hp => hidle (h.idle hp)
  · rw [hphase]
    exact fun hp => hsent (h.sent hp)
  · rw [hphase]
    exact fun hp => hout (h.cleared hp)
  · intro n c hc hlate
    rw [hcalls] at hc
    obtain ⟨hid, hmem⟩ := h.late n c hc hlate
    exact ⟨hid, hreplies _ hmem⟩
  · intro n c hc hid
    rw [hcalls] at hc
    obtain ⟨r, hr, rfl⟩ := List.mem_map.mp (h.rejected n c hc hid)
    exact List.mem_map_of_mem (hreplies r hr)

/-- The closure of another call, and the other closure of the call, stay. -/
theorem resetWait_spec (cancels : Nat → Cancellable) (h : Handler V) (n : Nat) :
    (resetWait cancels h n).cancelSend = (cancels n).cancelSend ∧
      (resetWait cancels h n).cancelWait =
        if n = h.call ∧ h.pcancel = true then none else (cancels n).cancelWait := by
  rw [resetWait]
  cases hp : h.pcancel with
  | false => exact ⟨rfl, by simp⟩
  | true =>
    by_cases hne : n = h.call
    · subst hne
      simp
    · simp [hne]

/-- Resetting the send callback touches the cancellable of that entry only. -/
theorem resetSend_spec (cancels : Nat → Cancellable) (e : OutgoingEntry) (n : Nat) :
    (resetSend cancels e n).cancelWait = (cancels n).cancelWait ∧
      (resetSend cancels e n).cancelSend =
        if n = e.call ∧ e.pcancel = true then false else (cancels n).cancelSend := by
  rw [resetSend]
  cases hp : e.pcancel with
  | false => exact ⟨rfl, by simp⟩
  | true =>
    by_cases hne : n = e.call
    · subst hne
      simp
    · simp [hne]

/-- A closure that is set after the reset was set before it, and was not the one that is reset. -/
theorem cancelSend_of_reset {cancels : Nat → Cancellable} {e : OutgoingEntry} {n : Nat}
    (h : (resetSend cancels e n).cancelSend = true) :
    (cancels n).cancelSend = true ∧ ¬ (n = e.call ∧ e.pcancel = true) := by
  rw [(resetSend_spec cancels e n).2] at h
  split at h
  · cases h
  · rename_i hnot
    exact ⟨h, hnot⟩

/-- The state without the handler `h`, before its promise is set. -/
def takeHandler (s : Client V) (h : Handler V) (answered : List (Nat × Int × Bytes)) : Client V :=
  { s with outstanding := s.outstanding.filter (·.id != h.id), answered := answered }

/-- The handler is destroyed after its promise was set, or it sets it then. -/
theorem settled_drop {s t : Client V} {h : Handler V} {o : Outcome V}
    {answered : List (Nat × Int × Bytes)}
    (ht : t = ((takeHandler s h answered).resolve h.call o).dropHandler h true)
    (hanswered : answered = s.answered ∨
      ∃ id payload, answered = s.answered ++ [(h.call, id, payload)]) :
    Settled s t h o ∧ SameSends s t ∧ (Phased s → Phased t) := by
  have hcancels := resetWait_spec s.cancels h
  subst ht
  refine ⟨⟨rfl, rfl, rfl, rfl, fun n => (hcancels n).2, hanswered⟩,
    ⟨rfl, rfl, rfl, rfl, fun n => (hcancels n).1⟩, fun hp => ?_⟩
  · refine hp.mono rfl (fun he => he) rfl (fun hloop => hloop) (fun hnil => hnil) ?_ rfl fun r hr => List.mem_append_left _ hr
    intro hnil
    show List.filter _ s.outstanding = []
    rw [hnil]
    rfl

/-- The destructor sets the promise. -/
theorem drop_closed (s : Client V) (h : Handler V) :
    s.dropHandler h false = (s.resolve h.call .closed).dropHandler h true := rfl

/-- What `Inv` is after a handler has left. -/
theorem Inv.settled {s t : Client V} {h : Handler V} {o : Outcome V}
    {answered : List (Nat × Int × Bytes)} (hi : Inv s) (hmem : h ∈ s.outstanding)
    (ht : t = ((takeHandler s h answered).resolve h.call o).dropHandler h true)
    (hanswered : answered = s.answered ∨
      ∃ id payload, answered = s.answered ++ [(h.call, id, payload)])
    (ho : (takeHandler s h answered).Answers h.call o) : Inv t := by
  obtain ⟨hst, hsame, hphased⟩ := settled_drop ht hanswered
  have ho' : t.Answers h.call o := by
    rw [ht]
    exact Answers.mono ho (fun c hc => hc) fun a ha => ha
  exact ⟨hi.waiting.settled hmem hst ho', hi.sending.same hsame, hphased hi.phased⟩

/-- A lookup by id gives an outstanding call with the id. -/
theorem find_id {s : Client V} {i : Int} {h : Handler V}
    (hfind : s.outstanding.find? (·.id == i) = some h) : h ∈ s.outstanding ∧ h.id = i :=
  ⟨List.mem_of_find?_eq_some hfind, by simpa using List.find?_some hfind⟩

/-- The handler that `failWait` finds. -/
theorem failWait_eq {s : Client V} {i : Int} (hex : ∃ h ∈ s.outstanding, h.id = i) (o : Outcome V) :
    ∃ h ∈ s.outstanding, h.id = i ∧
      s.failWait i o = ((takeHandler s h s.answered).resolve h.call o).dropHandler h true := by
  rw [Client.failWait]
  cases hfind : s.outstanding.find? (·.id == i) with
  | none =>
    obtain ⟨h, hmem, hid⟩ := hex
    have hnone := List.find?_eq_none.mp hfind h hmem
    rw [hid] at hnone
    exact absurd (beq_self_eq_true i) hnone
  | some h =>
    obtain ⟨hmem, rfl⟩ := find_id hfind
    exact ⟨h, hmem, rfl, rfl⟩

/-- A timer or a cancellable ends a wait. -/
theorem Inv.failWait {s : Client V} {i : Int} {o : Outcome V} (hi : Inv s)
    (hex : ∃ h ∈ s.outstanding, h.id = i) (ho : ∀ t n, Client.Answers t n o) :
    Inv (s.failWait i o) := by
  obtain ⟨h, hmem, -, heq⟩ := failWait_eq hex o
  exact hi.settled hmem heq (.inl rfl) (ho _ _)

/-- A frame finds a handler, and its payload can be unmarshalled if it is an error reply. -/
theorem Inv.handle {s : Client V} {id : Int} {payload : Bytes} {h : Handler V} (hi : Inv s)
    (hmem : h ∈ s.outstanding) (hid : h.id = absId id)
    (hok : id < 0 → (unmarshalException payload).isSome = true) :
    Inv (Client.handle (takeHandler s h (s.answered ++ [(h.call, id, payload)])) h id payload).1 := by
  obtain ⟨c, hc, hcid, -, hcun⟩ := hi.waiting.known h hmem
  have hin : (h.call, id, payload) ∈ s.answered ++ [(h.call, id, payload)] :=
    List.mem_append_right _ List.mem_cons_self
  have hframe : s.answered ++ [(h.call, id, payload)] = s.answered ∨
      ∃ id' payload', s.answered ++ [(h.call, id, payload)] =
        s.answered ++ [(h.call, id', payload')] := .inr ⟨id, payload, rfl⟩
  rw [Client.handle]
  by_cases hpos : id ≥ 0
  · rw [if_pos hpos]
    rw [absId, if_neg (by omega)] at hid
    cases hun : h.unmarshall payload with
    | some v =>
      exact hi.settled hmem rfl hframe ⟨c, id, payload, hc, by rw [hcid, hid], hin,
        by rw [hcun, hun]⟩
    | none =>
      show Inv (Client.dropHandler _ h false)
      rw [drop_closed]
      exact hi.settled hmem rfl hframe trivial
  · rw [if_neg hpos]
    rw [absId, if_pos (by omega)] at hid
    obtain ⟨e, he⟩ := Option.isSome_iff_exists.mp (hok (by omega))
    rw [he]
    refine hi.settled hmem rfl hframe ⟨c, h.id, payload, hc, hcid, ?_, he⟩
    rw [hid, Int.neg_neg]
    exact hin

/-! ### A message leaves with its promise -/

/-- An accepted call has been made. -/
theorem Accepted.lt {s : Client V} {n : Nat} (h : s.Accepted n) : n < s.calls.length := by
  obtain ⟨c, hc, -⟩ := h
  exact (List.getElem?_eq_some_iff.mp hc).1

/-- A message is gone and its promise is set. -/
theorem Sending.remove {s t : Client V} {n : Nat} (hs : Sending s) (hn : n ∈ pendingCalls s)
    (hcalls : t.calls = s.calls) (hpending : pendingCalls t = (pendingCalls s).filter (· != n))
    (hsends : t.sends = s.sends ++ [n])
    (hclosures : ∀ m, (t.cancels m).cancelSend = true →
      ∃ e ∈ t.outgoingQueue, e.call = m ∧ e.pcancel = true) : Sending t := by
  constructor
  · rw [hpending]
    exact hs.calls.filter _
  · intro m
    rw [hpending, Accepted, hcalls, ← Accepted, hsends, List.mem_append, List.mem_singleton, not_or,
      List.mem_filter, hs.exactly m, bne_iff_ne, and_assoc]
  · rw [hsends]
    refine List.nodup_append'.mpr ⟨hs.once, List.nodup_singleton _, ?_⟩
    intro m hm hsingle
    obtain rfl : m = n := List.mem_singleton.mp hsingle
    exact ((hs.exactly m).mp hn).2 hm
  · intro m hm
    rw [hsends, List.mem_append, List.mem_singleton] at hm
    rw [hcalls]
    rcases hm with hm | rfl
    · exact hs.bound m hm
    · exact Accepted.lt ((hs.exactly m).mp hn).1
  · exact hclosures

/-- An entry of the queue is destroyed. -/
theorem Inv.dropEntry {s : Client V} {e : OutgoingEntry} {queue : List OutgoingEntry} (hi : Inv s)
    (hmem : e ∈ s.outgoingQueue)
    (hqueue : queue = s.outgoingQueue.filter (·.call != e.call)) :
    Inv (Client.dropEntry { s with outgoingQueue := queue } e) := by
  have hin : e.call ∈ pendingCalls s := by
    apply List.mem_map_of_mem
    rw [pending]
    split
    · exact List.mem_cons_of_mem _ hmem
    · exact hmem
  have hfilter : queue.map (·.call) = (s.outgoingQueue.map (·.call)).filter (· != e.call) := by
    rw [hqueue, List.filter_map]
    rfl
  have hcancels := resetSend_spec s.cancels e
  refine ⟨hi.waiting.same ⟨rfl, rfl, rfl, rfl, rfl, fun n => (hcancels n).1⟩,
    hi.sending.remove hin rfl ?_ rfl ?_, ?_⟩
  · -- the message that is being written is another one
    have hnodup := hi.sending.calls
    show (pending { s with outgoingQueue := queue }).map (·.call) = _
    rw [pendingCalls, pending] at hnodup ⊢
    rw [pending]
    cases hloop : s.sendLoop with
    | writing d =>
      rw [hloop] at hnodup
      have hne : d.call ≠ e.call := by
        intro heq
        have hnot : d.call ∉ s.outgoingQueue.map (·.call) := (List.nodup_cons.mp hnodup).1
        rw [heq] at hnot
        exact hnot (List.mem_map_of_mem hmem)
      show d.call :: queue.map (·.call) = _
      rw [hfilter, List.map_cons, List.filter_cons_of_pos (by simpa using hne)]
    | idle => exact hfilter
    | waiting => exact hfilter
    | done => exact hfilter
  · intro n hn
    obtain ⟨hold, hnot⟩ := cancelSend_of_reset hn
    obtain ⟨e', hmem', hcall, hp⟩ := hi.sending.closures n hold
    refine ⟨e', ?_, hcall, hp⟩
    show e' ∈ queue
    rw [hqueue, List.mem_filter]
    refine ⟨hmem', ?_⟩
    rw [bne_iff_ne]
    intro heq
    -- two entries of one call are one
    have hqueueNodup : (s.outgoingQueue.map (·.call)).Nodup := by
      have hnodup := hi.sending.calls
      rw [pendingCalls, pending] at hnodup
      split at hnodup
      · exact (List.nodup_cons.mp hnodup).2
      · exact hnodup
    have hsame := List.inj_on_of_nodup_map hqueueNodup hmem' hmem heq
    rw [hsame] at hcall hp
    exact hnot ⟨hcall.symm, hp⟩
  · refine hi.phased.mono rfl (fun he => he) rfl (fun hloop => hloop) ?_ (fun hnil => hnil) rfl
      fun r hr => hr
    intro hnil
    have hnone : pendingCalls s = [] := by rw [pendingCalls, hnil, List.map_nil]
    rw [hnone] at hin
    cases hin

/-- The entry that `eraseEntry` finds. -/
theorem eraseEntry_eq {s : Client V} {n : Nat} (hex : ∃ e ∈ s.outgoingQueue, e.call = n) :
    ∃ e ∈ s.outgoingQueue, e.call = n ∧ s.eraseEntry n =
      Client.dropEntry { s with outgoingQueue := s.outgoingQueue.filter (·.call != n) } e := by
  rw [Client.eraseEntry]
  cases hfind : s.outgoingQueue.find? (·.call == n) with
  | none =>
    obtain ⟨e, hmem, hcall⟩ := hex
    have hnone := List.find?_eq_none.mp hfind e hmem
    rw [hcall] at hnone
    exact absurd (beq_self_eq_true n) hnone
  | some e =>
    have hcall : e.call = n := by simpa using List.find?_some hfind
    exact ⟨e, List.mem_of_find?_eq_some hfind, hcall, rfl⟩

/-- A timer or a cancellable takes a message out of the queue. -/
theorem Inv.eraseEntry {s : Client V} {n : Nat} (hi : Inv s)
    (hex : ∃ e ∈ s.outgoingQueue, e.call = n) : Inv (s.eraseEntry n) := by
  obtain ⟨e, hmem, rfl, heq⟩ := eraseEntry_eq hex
  rw [heq]
  exact hi.dropEntry hmem rfl

/-- `cancellable::cancel`. -/
theorem Inv.cancel {s : Client V} (hi : Inv s) (n : Nat) : Inv (s.cancel n) := by
  have herase : Inv (if (s.cancels n).cancelSend then s.eraseEntry n else s) := by
    split
    · rename_i hsend
      obtain ⟨e, hmem, hcall, -⟩ := hi.sending.closures n hsend
      exact hi.eraseEntry ⟨e, hmem, hcall⟩
    · exact hi
  rw [Client.cancel]
  generalize (if (s.cancels n).cancelSend then s.eraseEntry n else s) = t at herase
  split
  · rename_i id hwait
    obtain ⟨h, hmem, -, hid, -⟩ := herase.waiting.closures n id hwait
    exact herase.failWait ⟨h, hmem, hid⟩ fun _ _ => trivial
  · exact herase

/-- The send loop takes a message. -/
theorem Inv.pop {s t : Client V} (hi : Inv s) (hstep : s.pop = some t) : Inv t := by
  rw [Client.pop] at hstep
  split at hstep
  · rename_i d queue hloop hqueue
    cases hstep
    have hcalls : pendingCalls s = d.call :: queue.map (·.call) := by
      rw [pendingCalls, pending, hloop, hqueue]
      rfl
    have hnodup := hi.sending.calls
    rw [hcalls] at hnodup
    have hcancels := resetSend_spec s.cancels d
    refine ⟨hi.waiting.same ⟨rfl, rfl, rfl, rfl, rfl, fun n => (hcancels n).1⟩, ?_, ?_⟩
    · refine ⟨hnodup, ?_, hi.sending.once, hi.sending.bound, ?_⟩
      · intro n
        have hexactly := hi.sending.exactly n
        rw [hcalls] at hexactly
        exact hexactly
      · intro n hn
        obtain ⟨hold, hnot⟩ := cancelSend_of_reset hn
        obtain ⟨e, hmem, hcall, hp⟩ := hi.sending.closures n hold
        rw [hqueue] at hmem
        rcases List.mem_cons.mp hmem with rfl | hmem
        · exact absurd ⟨hcall.symm, hp⟩ hnot
        · exact ⟨e, hmem, hcall, hp⟩
    · refine hi.phased.mono rfl (fun he => he) rfl (fun hidle => ?_) ?_ (fun hnil => hnil) rfl
        fun r hr => hr
      · rw [hloop] at hidle
        cases hidle
      intro hnil
      have hnone : pendingCalls s = [] := by rw [pendingCalls, hnil, List.map_nil]
      rw [hcalls] at hnone
      cases hnone
  · cases hstep

/-- A write has ended. -/
theorem Inv.written {s t : Client V} {ok : Bool} (hi : Inv s) (hstep : s.written ok = some t) :
    Inv t := by
  rw [Client.written] at hstep
  split at hstep
  · rename_i d hloop
    cases hstep
    have hcalls : pendingCalls s = d.call :: s.outgoingQueue.map (·.call) := by
      rw [pendingCalls, pending, hloop]
      rfl
    have hnodup := hi.sending.calls
    rw [hcalls] at hnodup
    -- The loop lets go of its message, whether it goes on or ends.
    have hafter : ∀ b : Bool, pending { s with sendLoop := if b then .done else .waiting } =
        s.outgoingQueue := by
      intro b
      cases b <;> rfl
    refine ⟨hi.waiting.same ⟨rfl, rfl, rfl, rfl, rfl, fun n => (resetSend_spec s.cancels d n).1⟩,
      @Sending.remove _ s _ d.call hi.sending ?_ rfl ?_ rfl ?_, ?_⟩
    · rw [hcalls]
      exact List.mem_cons_self
    · show (pending { s with sendLoop := if s.error || !ok then .done else .waiting }).map _ = _
      rw [hafter, hcalls, List.filter_cons_of_neg (by simp)]
      symm
      apply List.filter_eq_self.mpr
      intro n hn
      rw [bne_iff_ne]
      rintro rfl
      exact (List.nodup_cons.mp hnodup).1 hn
    · intro n hn
      exact hi.sending.closures n (cancelSend_of_reset hn).1
    · refine hi.phased.mono rfl ?_ rfl (fun hidle => ?_) ?_ (fun hnil => hnil) rfl fun r hr => hr
      · intro he
        show (s.error || !ok) = true
        rw [he]
        rfl
      · rw [hloop] at hidle
        cases hidle
      · intro hnil
        rw [pendingCalls, hnil] at hcalls
        cases hcalls
  · cases hstep

/-! ### The end of the connection -/

/-- The queue is cleared when nothing is being written. -/
theorem Inv.clearQueue {s : Client V} (hi : Inv s) (hloop : s.sendLoop = .idle ∨ s.sendLoop = .done) :
    Inv s.clearQueue ∧ pending s.clearQueue = [] ∧ s.clearQueue.error = s.error := by
  rw [Client.clearQueue]
  generalize hqueue : s.outgoingQueue = queue
  have hs : s = { s with outgoingQueue := queue } := by rw [← hqueue]
  rw [hs] at hi
  clear hs hqueue
  induction queue generalizing s with
  | nil =>
    refine ⟨hi, ?_, rfl⟩
    rw [pending]
    rcases hloop with hloop | hloop
    · simp [hloop]
    · simp [hloop]
  | cons e queue ih =>
    have hfilter : queue = (e :: queue).filter (·.call != e.call) := by
      have hnodup := hi.sending.calls
      rw [pendingCalls, pending] at hnodup
      have hnot : e.call ∉ queue.map (·.call) := by
        rcases hloop with hloop | hloop
        · simp only [hloop] at hnodup
          exact (List.nodup_cons.mp hnodup).1
        · simp only [hloop] at hnodup
          exact (List.nodup_cons.mp hnodup).1
      rw [List.filter_cons_of_neg (by simp)]
      symm
      apply List.filter_eq_self.mpr
      intro e' hmem
      rw [bne_iff_ne]
      intro heq
      exact hnot (heq ▸ List.mem_map_of_mem hmem)
    have hdrop : Inv (Client.dropEntry { s with outgoingQueue := queue } e) :=
      @Inv.dropEntry _ { s with outgoingQueue := e :: queue } e queue hi List.mem_cons_self hfilter
    exact @ih (Client.dropEntry s e) hloop hdrop

/-- The other handlers stay. -/
theorem filter_tail {s : Client V} {h : Handler V} {hs : List (Handler V)}
    (hi : Inv { s with outstanding := h :: hs }) : hs = (h :: hs).filter (·.id != h.id) := by
  have hnodup : ((h :: hs).map (·.id)).Nodup := hi.waiting.ids
  rw [List.filter_cons_of_neg (by simp)]
  symm
  apply List.filter_eq_self.mpr
  intro h' hmem
  rw [bne_iff_ne]
  intro heq
  exact (List.nodup_cons.mp hnodup).1 (List.mem_map.mpr ⟨h', hmem, heq⟩)

/-- The handlers that are left close their calls. -/
theorem Inv.clearOutstanding {s : Client V} (hi : Inv s) :
    Inv s.clearOutstanding ∧ s.clearOutstanding.outstanding = [] ∧
      s.clearOutstanding.error = s.error ∧ pending s.clearOutstanding = pending s := by
  rw [Client.clearOutstanding]
  generalize hout : s.outstanding = hs
  have heq : s = { s with outstanding := hs } := by rw [← hout]
  rw [heq] at hi
  clear heq hout
  induction hs generalizing s with
  | nil => exact ⟨hi, rfl, rfl, rfl⟩
  | cons h hs ih =>
    have hdrop : Inv { s.dropHandler h false with outstanding := hs } := by
      refine @Inv.settled _ { s with outstanding := h :: hs } _ h .closed s.answered hi
        List.mem_cons_self ?_ (.inl rfl) trivial
      rw [drop_closed, takeHandler, ← filter_tail hi]
      rfl
    exact @ih (s.dropHandler h false) hdrop

/-- The receive loop, after a frame. -/
theorem Inv.readNext {s : Client V} (hi : Inv s) (ends : Bool) : Inv (s.readNext ends) := by
  have hphase : (s.readNext ends).phase = .ended ∨ (s.readNext ends).phase = .reading := by
    rw [Client.readNext]
    cases ends || s.error <;> simp
  refine ⟨hi.waiting.same ⟨rfl, rfl, rfl, rfl, rfl, fun _ => rfl⟩,
    hi.sending.same ⟨rfl, rfl, rfl, rfl, fun _ => rfl⟩, hi.phased.safe, ?_, ?_, ?_, ?_,
    hi.phased.late, hi.phased.rejected⟩
  · intro hp
    rcases hphase with heq | heq <;> rw [heq] at hp <;> simp at hp
  · intro hp
    rcases hphase with heq | heq <;> rw [heq] at hp <;> cases hp
  · intro hp
    rcases hphase with heq | heq <;> rw [heq] at hp <;> simp at hp
  · intro hp
    rcases hphase with heq | heq <;> rw [heq] at hp <;> cases hp

/-- A frame that can be decoded keeps the invariant. -/
theorem Inv.frame {s : Client V} (hi : Inv s) {id : Int} {payload : Bytes} {eof : Bool}
    (hok : s.Decodable (.frame id payload eof)) : Inv (s.frame id payload eof) := by
  rw [Client.frame]
  cases hfind : s.outstanding.find? (·.id == absId id) with
  | none => exact hi.readNext eof
  | some h =>
    obtain ⟨hmem, hid⟩ := find_id hfind
    have hhandle := hi.handle hmem hid fun hneg => hok hneg ⟨h, hmem, hid⟩
    rw [takeHandler, hid] at hhandle
    exact hhandle.readNext _

/-! ### A call -/

/-- A call that was made before is the same after another one. -/
theorem getElem_addCall {calls : List (Call V)} {c d : Call V} {n : Nat} :
    (calls ++ [c])[n]? = some d ↔ calls[n]? = some d ∨ n = calls.length ∧ d = c := by
  rw [List.getElem?_append]
  split
  · rename_i hlt
    constructor
    · exact .inl
    · rintro (h | ⟨rfl, -⟩)
      · exact h
      · exact absurd hlt (Nat.lt_irrefl _)
  · rename_i hge
    have hnone : calls[n]? = none := List.getElem?_eq_none (Nat.le_of_not_lt hge)
    rw [hnone, List.getElem?_singleton]
    constructor
    · intro h
      split at h
      · rename_i hzero
        cases h
        exact .inr ⟨by omega, rfl⟩
      · cases h
    · rintro (h | ⟨rfl, rfl⟩)
      · cases h
      · rw [Nat.sub_self, if_pos rfl]

/-- The reply side after a call: the call `c`, and its handler if it has one. `new` are the promises
that are set. -/
structure Called (s t : Client V) (c : Call V) (handlers : List (Handler V))
    (new : List (Nat × Outcome V)) : Prop where
  calls : t.calls = s.calls ++ [c]
  messageId : s.messageId ≤ t.messageId ∧ ∀ i ∈ c.id, s.messageId = i ∧ i < t.messageId
  outstanding : t.outstanding = s.outstanding ++ handlers
  replies : t.replies = s.replies ++ new
  answered : t.answered = s.answered
  cancels : ∀ n i, (t.cancels n).cancelWait = some i → (s.cancels n).cancelWait = some i ∨
    ∃ h ∈ handlers, h.call = n ∧ h.id = i ∧ h.pcancel = true
  waits : c.wait = true → c.id.isSome = true → ∃ h, handlers = [h] ∧ new = [] ∧
    h.call = s.calls.length ∧ c.id = some h.id ∧ c.unmarshall = h.unmarshall
  other : ¬ (c.wait = true ∧ c.id.isSome = true) → handlers = [] ∧
    (new = [] ∨ new = [(s.calls.length, .closed)])

/-- A new call takes no reply away. -/
theorem Called.mem_replies {s t : Client V} {c : Call V} {handlers : List (Handler V)}
    {new : List (Nat × Outcome V)} (hst : Called s t c handlers new) {r : Nat × Outcome V}
    (hr : r ∈ s.replies) : r ∈ t.replies := by
  rw [hst.replies]
  exact List.mem_append_left _ hr

/-- After a new call, the calls that wait are those before and the new one, when it waits and got an
id. -/
theorem Called.waits_iff {s t : Client V} {c : Call V} {handlers : List (Handler V)}
    {new : List (Nat × Outcome V)} (hst : Called s t c handlers new) (n : Nat) :
    t.Waits n ↔ s.Waits n ∨ n = s.calls.length ∧ c.wait = true ∧ c.id.isSome = true := by
  rw [Waits, Waits, hst.calls]
  constructor
  · rintro ⟨d, hd, hrest⟩
    rcases getElem_addCall.mp hd with hd | ⟨rfl, rfl⟩
    · exact .inl ⟨d, hd, hrest⟩
    · exact .inr ⟨rfl, hrest⟩
  · rintro (⟨d, hd, hrest⟩ | ⟨rfl, hrest⟩)
    · exact ⟨d, getElem_addCall.mpr (.inl hd), hrest⟩
    · exact ⟨c, getElem_addCall.mpr (.inr ⟨rfl, rfl⟩), hrest⟩

/-- A call that waits has been made. -/
theorem Waits.lt {s : Client V} {n : Nat} (h : s.Waits n) : n < s.calls.length := by
  obtain ⟨c, hc, -⟩ := h
  exact (List.getElem?_eq_some_iff.mp hc).1

/-- A call that waits has its handler, and the others have none. -/
theorem Waiting.called_exactly {s t : Client V} {c : Call V} {handlers : List (Handler V)}
    {new : List (Nat × Outcome V)} (hw : Waiting s) (hst : Called s t c handlers new) (n : Nat) :
    (∃ h ∈ t.outstanding, h.call = n) ↔ t.Waits n ∧ n ∉ t.replies.map Prod.fst := by
  have hbound : s.calls.length ∉ s.replies.map Prod.fst := by
    intro hmem
    exact absurd (hw.bound _ hmem) (Nat.lt_irrefl _)
  rw [hst.waits_iff, hst.outstanding, hst.replies, List.map_append]
  by_cases hwait : c.wait = true ∧ c.id.isSome = true
  · obtain ⟨h, rfl, rfl, hcall, -⟩ := hst.waits hwait.1 hwait.2
    rw [List.map_nil, List.append_nil]
    constructor
    · rintro ⟨h', hmem, rfl⟩
      rcases List.mem_append.mp hmem with hmem | hmem
      · obtain ⟨hwaits, hnot⟩ := (hw.exactly h'.call).mp ⟨h', hmem, rfl⟩
        exact ⟨.inl hwaits, hnot⟩
      · rw [List.mem_singleton.mp hmem, hcall]
        exact ⟨.inr ⟨rfl, hwait⟩, hbound⟩
    · rintro ⟨hwaits | ⟨rfl, -⟩, hnot⟩
      · obtain ⟨h', hmem, hcall'⟩ := (hw.exactly n).mpr ⟨hwaits, hnot⟩
        exact ⟨h', List.mem_append_left _ hmem, hcall'⟩
      · exact ⟨h, List.mem_append_right _ List.mem_cons_self, hcall⟩
  · obtain ⟨rfl, hnew⟩ := hst.other hwait
    rw [List.append_nil, hw.exactly n, List.mem_append, not_or]
    have hother : s.Waits n → n ∉ new.map Prod.fst := by
      intro hwaits hmem
      rcases hnew with rfl | rfl
      · cases hmem
      · have hlt := Waits.lt hwaits
        rw [List.mem_singleton.mp hmem] at hlt
        exact Nat.lt_irrefl _ hlt
    constructor
    · rintro ⟨hwaits, hnot⟩
      exact ⟨.inl hwaits, hnot, hother hwaits⟩
    · rintro ⟨hwaits | ⟨-, hwait'⟩, hnot, -⟩
      · exact ⟨hwaits, hnot⟩
      · exact absurd hwait' hwait

/-- A new call keeps the part about the waiting calls. -/
theorem Waiting.called {s t : Client V} {c : Call V} {handlers : List (Handler V)}
    {new : List (Nat × Outcome V)} (hw : Waiting s) (hst : Called s t c handlers new) :
    Waiting t := by
  -- A call that does not wait for a reply, or gets no number, is answered here if at all.
  have hnew : new = [] ∨ new = [(s.calls.length, .closed)] := by
    by_cases hwait : c.wait = true ∧ c.id.isSome = true
    · obtain ⟨h, -, hnil, -⟩ := hst.waits hwait.1 hwait.2
      exact .inl hnil
    · exact (hst.other hwait).2
  have hhandlers : ∀ h ∈ handlers, c.wait = true ∧ h.call = s.calls.length ∧ c.id = some h.id ∧
      c.unmarshall = h.unmarshall := by
    intro h hmem
    by_cases hwait : c.wait = true ∧ c.id.isSome = true
    · obtain ⟨h', rfl, -, hcall, hid, hun⟩ := hst.waits hwait.1 hwait.2
      obtain rfl : h = h' := List.mem_singleton.mp hmem
      exact ⟨hwait.1, hcall, hid, hun⟩
    · rw [(hst.other hwait).1] at hmem
      cases hmem
  -- The new number is above all the earlier ones, since the message counter only grows.
  have hfreshId : ∀ (n : Nat) (d : Call V) (i : Int), s.calls[n]? = some d → d.id = some i →
      c.id ≠ some i := by
    intro n d i hd hid hc
    have hlt := (hw.fresh n d i hd hid).2
    have heq := (hst.messageId.2 i hc).1
    omega
  have hanswers : ∀ {n o}, s.Answers n o → t.Answers n o := by
    intro n o ho
    refine Answers.mono ho (fun d hd => ?_) fun a ha => by rw [hst.answered]; exact ha
    rw [hst.calls, getElem_addCall]
    exact .inl hd
  constructor
  · intro h hmem
    rw [hst.outstanding, List.mem_append] at hmem
    rw [hst.calls]
    rcases hmem with hmem | hmem
    · obtain ⟨d, hd, hrest⟩ := hw.known h hmem
      exact ⟨d, getElem_addCall.mpr (.inl hd), hrest⟩
    · obtain ⟨hwait, hcall, hid, hun⟩ := hhandlers h hmem
      exact ⟨c, getElem_addCall.mpr (.inr ⟨hcall, rfl⟩), hid, hwait, hun⟩
  · rw [hst.outstanding, List.map_append]
    refine List.nodup_append'.mpr ⟨hw.ids, ?_, ?_⟩
    · by_cases hwait : c.wait = true ∧ c.id.isSome = true
      · obtain ⟨h, rfl, -⟩ := hst.waits hwait.1 hwait.2
        exact List.nodup_singleton _
      · rw [(hst.other hwait).1]
        exact List.nodup_nil
    -- A handler from before has the number of an earlier call, and the new one has a fresh number.
    · intro i hi hi'
      obtain ⟨h, hmem, rfl⟩ := List.mem_map.mp hi
      obtain ⟨h', hmem', heq⟩ := List.mem_map.mp hi'
      obtain ⟨d, hd, hid, -⟩ := hw.known h hmem
      exact hfreshId _ d _ hd hid (by rw [(hhandlers h' hmem').2.2.1, heq])
  · intro n m d e i hd he hid hid'
    rw [hst.calls, getElem_addCall] at hd he
    rcases hd with hd | ⟨rfl, rfl⟩
    · rcases he with he | ⟨rfl, rfl⟩
      · exact hw.unique n m d e i hd he hid hid'
      · exact absurd hid' (hfreshId n d i hd hid)
    · rcases he with he | ⟨rfl, rfl⟩
      · exact absurd hid (hfreshId m e i he hid')
      · rfl
  · intro n d i hd hid
    rw [hst.calls, getElem_addCall] at hd
    rcases hd with hd | ⟨rfl, rfl⟩
    · have hfresh := hw.fresh n d i hd hid
      have hle := hst.messageId.1
      omega
    · have hnext := hst.messageId.2 i hid
      have hpos := hw.messageId
      omega
  -- The other fields are about the replies and the answers that have been recorded.
  · exact hw.called_exactly hst
  · rw [hst.replies, List.map_append]
    rcases hnew with rfl | rfl
    · rw [List.map_nil, List.append_nil]
      exact hw.once
    · refine List.nodup_append'.mpr ⟨hw.once, List.nodup_singleton _, ?_⟩
      intro n hn hsingle
      obtain rfl : n = s.calls.length := List.mem_singleton.mp hsingle
      exact absurd (hw.bound _ hn) (Nat.lt_irrefl _)
  · intro n hn
    rw [hst.replies, List.map_append, List.mem_append] at hn
    rw [hst.calls, List.length_append, List.length_singleton]
    rcases hn with hn | hn
    · exact Nat.lt_succ_of_lt (hw.bound n hn)
    · rcases hnew with rfl | rfl
      · cases hn
      · rw [List.mem_singleton.mp hn]
        exact Nat.lt_succ_self _
  · intro n i hn
    rw [hst.outstanding]
    rcases hst.cancels n i hn with hn | ⟨h, hmem, hrest⟩
    · obtain ⟨h, hmem, hrest⟩ := hw.closures n i hn
      exact ⟨h, List.mem_append_left _ hmem, hrest⟩
    · exact ⟨h, List.mem_append_right _ hmem, hrest⟩
  · rw [hst.answered]
    exact hw.first
  · intro n hn
    rw [hst.answered] at hn
    obtain ⟨hlt, hnot⟩ := hw.gone n hn
    rw [hst.calls, List.length_append, List.length_singleton, hst.outstanding]
    refine ⟨Nat.lt_succ_of_lt hlt, fun h hmem => ?_⟩
    rcases List.mem_append.mp hmem with hmem | hmem
    · exact hnot h hmem
    · rw [(hhandlers h hmem).2.1]
      omega
  · intro r hr
    rw [hst.replies, List.mem_append] at hr
    rcases hr with hr | hr
    · exact hanswers (hw.answers r hr)
    · rcases hnew with rfl | rfl
      · cases hr
      · rw [List.mem_singleton.mp hr]
        exact trivial
  · have hle := hst.messageId.1
    have hpos := hw.messageId
    omega

/-- The message side after a call: its message, or the promise of a message whose deadline has
passed. -/
structure Queued (s t : Client V) (c : Call V) (entries : List OutgoingEntry) (new : List Nat) :
    Prop where
  calls : t.calls = s.calls ++ [c]
  outgoingQueue : t.outgoingQueue = s.outgoingQueue ++ entries
  sendLoop : t.sendLoop = s.sendLoop
  sends : t.sends = s.sends ++ new
  cancels : ∀ n, (t.cancels n).cancelSend = true → (s.cancels n).cancelSend = true ∨
    ∃ e ∈ entries, e.call = n ∧ e.pcancel = true
  entries : entries.map (·.call) ++ new = if c.id.isSome then [s.calls.length] else []

/-- The entries of a new call are queued behind the pending ones. -/
theorem Queued.pendingCalls {s t : Client V} {c : Call V} {entries : List OutgoingEntry}
    {new : List Nat} (hst : Queued s t c entries new) :
    pendingCalls t = Client.pendingCalls s ++ entries.map (·.call) := by
  rw [Client.pendingCalls, Client.pendingCalls, pending, pending, hst.sendLoop, hst.outgoingQueue]
  cases s.sendLoop with
  | writing d =>
    rw [← List.map_append]
    rfl
  | idle => exact List.map_append
  | waiting => exact List.map_append
  | done => exact List.map_append

/-- After a new call, the accepted calls are those before and the ones of its entries. -/
theorem Queued.accepted_iff {s t : Client V} {c : Call V} {entries : List OutgoingEntry}
    {new : List Nat} (hst : Queued s t c entries new) (n : Nat) :
    t.Accepted n ↔ s.Accepted n ∨ n ∈ entries.map (·.call) ++ new := by
  rw [Accepted, Accepted, hst.calls, hst.entries]
  constructor
  · rintro ⟨d, hd, hid⟩
    rcases getElem_addCall.mp hd with hd | ⟨rfl, rfl⟩
    · exact .inl ⟨d, hd, hid⟩
    · rw [if_pos hid]
      exact .inr List.mem_cons_self
  · rintro (⟨d, hd, hid⟩ | hmem)
    · exact ⟨d, getElem_addCall.mpr (.inl hd), hid⟩
    · split at hmem
      · rename_i hid
        exact ⟨c, getElem_addCall.mpr (.inr ⟨List.mem_singleton.mp hmem, rfl⟩), hid⟩
      · cases hmem

/-- A new call keeps the part about the sends. -/
theorem Sending.called {s t : Client V} {c : Call V} {entries : List OutgoingEntry}
    {new : List Nat} (hs : Sending s) (hst : Queued s t c entries new) : Sending t := by
  have hnew : ∀ n, n ∈ entries.map (·.call) ++ new → n = s.calls.length := by
    intro n hn
    rw [hst.entries] at hn
    split at hn
    · exact List.mem_singleton.mp hn
    · cases hn
  have hnodup : (entries.map (·.call) ++ new).Nodup := by
    rw [hst.entries]
    split
    · exact List.nodup_singleton _
    · exact List.nodup_nil
  -- The new call has the next number, and every pending call has a smaller one.
  have hpending : ∀ n ∈ pendingCalls s, n < s.calls.length := fun n hn =>
    Accepted.lt ((hs.exactly n).mp hn).1
  obtain ⟨hentries, hsends, hdisjoint⟩ := List.nodup_append'.mp hnodup
  constructor
  · rw [hst.pendingCalls]
    refine List.nodup_append'.mpr ⟨hs.calls, hentries, fun n hn hn' => ?_⟩
    have hlt := hpending n hn
    rw [hnew n (List.mem_append_left _ hn')] at hlt
    exact Nat.lt_irrefl _ hlt
  -- Accepted and not sent is the same as pending, for the earlier calls and for the new one.
  · intro n
    rw [hst.accepted_iff, hst.pendingCalls, hst.sends, List.mem_append, hs.exactly n,
      List.mem_append, List.mem_append, not_or]
    constructor
    · rintro (⟨haccepted, hnot⟩ | hmem)
      · refine ⟨.inl haccepted, hnot, fun hmem => ?_⟩
        have hlt := Accepted.lt haccepted
        rw [hnew n (List.mem_append_right _ hmem)] at hlt
        exact Nat.lt_irrefl _ hlt
      · refine ⟨.inr (.inl hmem), fun hsent => ?_, fun hmem' => hdisjoint hmem hmem'⟩
        have hlt := hs.bound n hsent
        rw [hnew n (List.mem_append_left _ hmem)] at hlt
        exact Nat.lt_irrefl _ hlt
    · rintro ⟨haccepted | hmem | hmem, hnot, hnot'⟩
      · exact .inl ⟨haccepted, hnot⟩
      · exact .inr hmem
      · exact absurd hmem hnot'
  · rw [hst.sends]
    refine List.nodup_append'.mpr ⟨hs.once, hsends, fun n hn hn' => ?_⟩
    have hlt := hs.bound n hn
    rw [hnew n (List.mem_append_right _ hn')] at hlt
    exact Nat.lt_irrefl _ hlt
  · intro n hn
    rw [hst.sends, List.mem_append] at hn
    rw [hst.calls, List.length_append, List.length_singleton]
    rcases hn with hn | hn
    · exact Nat.lt_succ_of_lt (hs.bound n hn)
    · rw [hnew n (List.mem_append_right _ hn)]
      exact Nat.lt_succ_self _
  · intro n hn
    rw [hst.outgoingQueue]
    rcases hst.cancels n hn with hn | ⟨e, hmem, hrest⟩
    · obtain ⟨e, hmem, hrest⟩ := hs.closures n hn
      exact ⟨e, List.mem_append_left _ hmem, hrest⟩
    · exact ⟨e, List.mem_append_right _ hmem, hrest⟩

/-- `send` adds the message, or sets its promise, and leaves the reply side. -/
theorem send_queued {s : Client V} {c : Call V} {timeout : Option Bool} {cancel : Bool}
    {m : Int} (hid : c.id.isSome = true) :
    let sent := Client.send { s with messageId := m, calls := s.calls ++ [c] } s.calls.length timeout
      cancel
    (∃ entries new, Queued s sent c entries new) ∧
      SameReplies { s with messageId := m, calls := s.calls ++ [c] } sent := by
  intro sent
  by_cases htimeout : timeout = some true
  · -- A timeout in the past: the promise is set and nothing is queued.
    have hsent : sent = { s with
        messageId := m, calls := s.calls ++ [c], sends := s.sends ++ [s.calls.length] } := by
      show Client.send _ _ _ _ = _
      rw [Client.send, if_pos htimeout]
    rw [hsent]
    refine ⟨⟨[], [s.calls.length], rfl, (List.append_nil _).symm, rfl, rfl, fun n hn => .inl hn, ?_⟩,
      rfl, rfl, rfl, rfl, rfl, fun _ => rfl⟩
    rw [if_pos hid]
    rfl
  · have hsent : sent = { s with
        messageId := m
        calls := s.calls ++ [c]
        outgoingQueue := s.outgoingQueue ++
          [{ call := s.calls.length, timer := timeout.isSome, pcancel := cancel }]
        cancels := if cancel then
            Function.update s.cancels s.calls.length
              { s.cancels s.calls.length with cancelSend := true }
          else s.cancels } := by
      show Client.send _ _ _ _ = _
      rw [Client.send, if_neg htimeout]
    rw [hsent]
    refine ⟨⟨[{ call := s.calls.length, timer := timeout.isSome, pcancel := cancel }], [], rfl, rfl,
      rfl, (List.append_nil _).symm, fun n hn => ?_, ?_⟩, rfl, rfl, rfl, rfl, rfl, fun n => ?_⟩
    · by_cases hown : n = s.calls.length ∧ cancel = true
      · exact .inr ⟨_, List.mem_cons_self, hown.1.symm, hown.2⟩
      · refine .inl ?_
        cases cancel with
        | false => exact hn
        | true =>
          have hne : n ≠ s.calls.length := fun heq => hown ⟨heq, rfl⟩
          simpa [Function.update_of_ne hne] using hn
    · rw [if_pos hid]
      rfl
    · cases cancel with
      | false => rfl
      | true =>
        by_cases hne : n = s.calls.length
        · subst hne
          simp
        · simp [hne]

/-- A call without a reply adds no handler. -/
theorem called_of_same {s t : Client V} {c : Call V}
    (hst : SameReplies { s with messageId := s.messageId + 1, calls := s.calls ++ [c] } t)
    (hwait : c.wait = false) (hid : c.id = some s.messageId) : Called s t c [] [] := by
  have hnext : t.messageId = s.messageId + 1 := hst.messageId
  refine ⟨hst.calls, ?_, ?_, ?_, hst.answered, fun n i hn => .inl ?_, fun h => ?_,
    fun _ => ⟨rfl, .inl rfl⟩⟩
  · rw [hid]
    refine ⟨by omega, fun i hi => ?_⟩
    have hi' : s.messageId = i := Option.some.inj hi
    omega
  · rw [List.append_nil]
    exact hst.outstanding
  · rw [List.append_nil]
    exact hst.replies
  · rw [← hn]
    exact (hst.cancelWait n).symm
  · rw [hwait] at h
    cases h

/-- `wait_for_reply` of a new call adds its handler, and leaves the message side. -/
theorem waitForReply_called {s t : Client V} {c : Call V} {h : Handler V} (hw : Waiting s)
    (hst : SameReplies { s with messageId := s.messageId + 1, calls := s.calls ++ [c] } t)
    (hcall : h.call = s.calls.length) (hid : h.id = s.messageId) (hcid : c.id = some h.id)
    (hun : c.unmarshall = h.unmarshall) (hwait : c.wait = true) :
    Called s (t.waitForReply h) c [h] [] ∧ SameSends t (t.waitForReply h) ∧
      (t.waitForReply h).crashed = t.crashed ∧ (t.waitForReply h).error = t.error ∧
      (t.waitForReply h).phase = t.phase := by
  -- The id is the next message number, and the outstanding ones are all below it.
  have hfree : t.outstanding.any (·.id == h.id) = false := by
    rw [List.any_eq_false]
    intro h' hmem heq
    rw [hst.outstanding] at hmem
    obtain ⟨d, hd, hdid, -⟩ := hw.known h' hmem
    have hlt := (hw.fresh _ d _ hd hdid).2
    have hsame : h'.id = h.id := eq_of_beq heq
    omega
  have heq : t.waitForReply h = { t with
      outstanding := t.outstanding ++ [h]
      cancels := if h.pcancel then
          Function.update t.cancels h.call { t.cancels h.call with cancelWait := some h.id }
        else t.cancels } := by
    rw [Client.waitForReply]
    cases h.pcancel with
    | false =>
      show (if t.outstanding.any (·.id == h.id) = true then _ else _) = _
      rw [hfree]
      rfl
    | true =>
      show (if t.outstanding.any (·.id == h.id) = true then _ else _) = _
      rw [hfree]
      rfl
  rw [heq]
  refine ⟨⟨hst.calls, ?_, ?_, ?_, hst.answered, fun n i hn => ?_, ?_, ?_⟩,
    ⟨rfl, rfl, rfl, rfl, fun n => ?_⟩, rfl, rfl, rfl⟩
  · have hnext : t.messageId = s.messageId + 1 := hst.messageId
    show s.messageId ≤ t.messageId ∧ ∀ i ∈ c.id, s.messageId = i ∧ i < t.messageId
    rw [hcid]
    refine ⟨by omega, fun i hi => ?_⟩
    have hi' : h.id = i := Option.some.inj hi
    omega
  · show t.outstanding ++ [h] = s.outstanding ++ [h]
    rw [hst.outstanding]
  · rw [List.append_nil]
    exact hst.replies
  -- The only new closure is the one of this call, if it has a cancellation object.
  · by_cases hown : n = h.call ∧ h.pcancel = true
    · refine .inr ⟨h, List.mem_cons_self, hown.1.symm, ?_, hown.2⟩
      obtain ⟨rfl, hp⟩ := hown
      simpa [hp] using hn
    · refine .inl ?_
      have hsame := hst.cancelWait n
      rw [← hsame]
      cases hp : h.pcancel with
      | false => simpa [hp] using hn
      | true =>
        have hne : n ≠ h.call := fun heq => hown ⟨heq, hp⟩
        simpa [hp, Function.update_of_ne hne] using hn
  · exact fun _ _ => ⟨h, rfl, rfl, hcall, hcid, hun⟩
  · intro hnot
    exact absurd ⟨hwait, by rw [hcid]; rfl⟩ hnot
  · cases h.pcancel with
    | false => rfl
    | true =>
      by_cases hne : n = h.call
      · subst hne
        simp
      · simp [hne]

/-- After the error there are no new messages and handlers, and the call is rejected. -/
theorem Phased.called {s t : Client V} {c : Call V} (h : Phased s)
    (hcalls : t.calls = s.calls ++ [c]) (hsafe : t.crashed = s.crashed) (herror : t.error = s.error)
    (hphase : t.phase = s.phase) (hloop : t.sendLoop = s.sendLoop)
    (hlive : s.error = true → pending t = pending s ∧ t.outstanding = s.outstanding ∧ c.id = none)
    (hreplies : ∀ r ∈ s.replies, r ∈ t.replies) (hlate : c.late = decide (s.phase = .stopped))
    (hrejected : c.id = none → (s.calls.length, .closed) ∈ t.replies) : Phased t := by
  constructor
  · rw [hsafe]
    exact h.safe
  · rw [hphase, herror]
    exact h.error
  · rw [hphase, hloop]
    exact h.idle
  · rw [hphase]
    intro hp
    rw [(hlive (h.error (.inr hp))).1]
    exact h.sent hp
  · rw [hphase]
    intro hp
    rw [(hlive (h.error (.inr (.inr hp)))).2.1]
    exact h.cleared hp
  · intro n d hd hdlate
    rw [hcalls, getElem_addCall] at hd
    rcases hd with hd | ⟨rfl, rfl⟩
    · obtain ⟨hid, hmem⟩ := h.late n d hd hdlate
      exact ⟨hid, hreplies _ hmem⟩
    · rw [hlate] at hdlate
      have hid := (hlive (h.error (.inr (.inr (of_decide_eq_true hdlate))))).2.2
      exact ⟨hid, hrejected hid⟩
  · intro n d hd hid
    rw [hcalls, getElem_addCall] at hd
    rcases hd with hd | ⟨rfl, rfl⟩
    · obtain ⟨r, hr, rfl⟩ := List.mem_map.mp (h.rejected n d hd hid)
      exact List.mem_map_of_mem (hreplies r hr)
    · exact List.mem_map.mpr ⟨_, hrejected hid, rfl⟩

/-- A call that fails at once. -/
theorem Inv.rejected {s : Client V} (hi : Inv s) (wait : Bool) (unmarshall : Bytes → Option V) :
    Inv ((s.addCall none wait unmarshall).resolve s.calls.length .closed) := by
  have hcalled : Called s ((s.addCall none wait unmarshall).resolve s.calls.length .closed)
      ⟨none, wait, unmarshall, decide (s.phase = .stopped)⟩ [] [(s.calls.length, .closed)] :=
    ⟨rfl, ⟨Int.le_refl _, fun i hi => nomatch hi⟩, (List.append_nil _).symm, rfl, rfl,
      fun n i hn => .inl hn, fun _ hid => (nomatch hid), fun _ => ⟨rfl, .inr rfl⟩⟩
  have hqueued : Queued s ((s.addCall none wait unmarshall).resolve s.calls.length .closed)
      ⟨none, wait, unmarshall, decide (s.phase = .stopped)⟩ [] [] :=
    ⟨rfl, (List.append_nil _).symm, rfl, (List.append_nil _).symm, fun n hn => .inl hn, rfl⟩
  refine ⟨hi.waiting.called hcalled, hi.sending.called hqueued,
    hi.phased.called rfl rfl rfl rfl rfl (fun _ => ⟨rfl, rfl, rfl⟩)
      (fun r hr => List.mem_append_left _ hr) rfl fun _ => ?_⟩
  exact List.mem_append_right _ List.mem_cons_self

/-- A call keeps the invariant. -/
theorem Inv.call {s : Client V} (hi : Inv s) (wait : Bool) (unmarshall : Bytes → Option V)
    (timeout : Option Bool) (cancel : Bool) : Inv (s.call wait unmarshall timeout cancel) := by
  rw [Client.call]
  by_cases herror : s.error = true
  · rw [if_pos herror]
    exact hi.rejected wait unmarshall
  · rw [if_neg herror]
    have hsend := @send_queued _ s
      ⟨some s.messageId, wait, unmarshall, decide (s.phase = .stopped)⟩ timeout cancel
      (s.messageId + 1) rfl
    -- `send` only queues: it neither fails nor moves the connection on.
    have hflags : ∀ sent, sent = (s.addCall (some s.messageId) wait unmarshall).send s.calls.length
        timeout cancel → sent.crashed = s.crashed ∧ sent.error = s.error ∧ sent.phase = s.phase := by
      rintro _ rfl
      rw [Client.send]
      split
      · exact ⟨rfl, rfl, rfl⟩
      · exact ⟨rfl, rfl, rfl⟩
    obtain ⟨⟨entries, new, hqueued⟩, hsame⟩ := hsend
    obtain ⟨hsafe, herr, hphase⟩ := hflags _ rfl
    have hdead : ∀ p : Prop, s.error = true → p := fun _ he => absurd he herror
    cases wait with
    | false =>
      have hcalled := called_of_same hsame rfl rfl
      exact ⟨hi.waiting.called hcalled, hi.sending.called hqueued,
        hi.phased.called hqueued.calls hsafe herr hphase hqueued.sendLoop (hdead _)
          (fun r hr => hcalled.mem_replies hr) rfl
          fun hnone => nomatch hnone⟩
    | true =>
      obtain ⟨hcalled, hsends, hsafe', herr', hphase'⟩ := @waitForReply_called _ s _ _
        ⟨s.messageId, s.calls.length, unmarshall, timeout.isSome, cancel⟩ hi.waiting hsame
        rfl rfl rfl rfl rfl
      exact ⟨hi.waiting.called hcalled, (hi.sending.called hqueued).same hsends,
        hi.phased.called hcalled.calls (hsafe'.trans hsafe) (herr'.trans herr)
          (hphase'.trans hphase) (hsends.sendLoop.trans hqueued.sendLoop) (hdead _)
          (fun r hr => hcalled.mem_replies hr) rfl
          fun hnone => nomatch hnone⟩

/-! ### All events -/

/-- A new client meets the invariant. -/
theorem create_inv : Inv (Client.create : Client V) := by
  refine ⟨?_, ?_, rfl, ?_, ?_, ?_, ?_, ?_, ?_⟩
  · constructor <;> simp [Client.create, Waits]
  · constructor <;> simp [Client.create, pendingCalls, pending, Accepted]
  all_goals simp [Client.create]

/-- A step that only sets `_error`, the phase, or where an idle send loop is. -/
theorem Inv.flags {s t : Client V} (hi : Inv s) {error : Bool} {phase : ClientPhase}
    {sendLoop : SendLoop}
    (ht : t = { s with error := error, phase := phase, sendLoop := sendLoop })
    (hpending : pending t = pending s)
    (herror : phase = .stopping ∨ phase = .closing ∨ phase = .stopped → error = true)
    (hidle : phase = .connecting → sendLoop = .idle)
    (hsent : phase = .closing ∨ phase = .stopped → pending s = [])
    (hcleared : phase = .stopped → s.outstanding = []) : Inv t := by
  have hcalls : pendingCalls t = pendingCalls s :=
    congrArg (List.map OutgoingEntry.call) hpending
  subst ht
  refine ⟨hi.waiting.same ⟨rfl, rfl, rfl, rfl, rfl, fun _ => rfl⟩, ?_, hi.phased.safe, herror,
    hidle, ?_, hcleared, hi.phased.late, hi.phased.rejected⟩
  · refine ⟨?_, ?_, hi.sending.once, hi.sending.bound, hi.sending.closures⟩
    · rw [hcalls]
      exact hi.sending.calls
    · rw [hcalls]
      exact hi.sending.exactly
  · rw [hpending]
    exact hsent

/-- Every step whose frames can be decoded keeps the invariant. -/
theorem Inv.step {s t : Client V} {e : Event V} (hi : Inv s) (hok : s.Decodable e)
    (hstep : s.step e = some t) : Inv t := by
  cases e with
  | call wait unmarshall timeout cancel =>
    cases hstep
    exact hi.call wait unmarshall timeout cancel
  | connected =>
    obtain ⟨hphase, heq⟩ := Option.ite_none_right_eq_some.mp hstep
    -- Before the connection is there, the send loop has not started, and it is idle.
    have hloop := hi.phased.idle hphase
    cases he : s.error with
    | true =>
      rw [he] at heq
      refine hi.flags (Option.some.inj heq).symm ?_ (by simp) (by simp) (by simp) (by simp)
      rw [← Option.some.inj heq, pending, pending, hloop]
      rfl
    | false =>
      rw [he] at heq
      refine hi.flags (Option.some.inj heq).symm ?_ (by simp) (by simp) (by simp) (by simp)
      rw [← Option.some.inj heq, pending, pending, hloop]
      rfl
  | connectFails =>
    obtain ⟨-, heq⟩ := Option.ite_none_right_eq_some.mp hstep
    cases heq
    exact hi.flags rfl rfl (by simp) (by simp) (by simp) (by simp)
  | pop => exact hi.pop hstep
  | written ok => exact hi.written hstep
  | sendLoopEnds =>
    obtain ⟨⟨hloop, herror⟩, heq⟩ := Option.ite_none_right_eq_some.mp hstep
    cases heq
    refine hi.flags rfl ?_ (fun _ => herror) (fun hp => ?_) hi.phased.sent hi.phased.cleared
    · rw [pending, pending, hloop]
    · have hidle := hi.phased.idle hp
      rw [hloop] at hidle
      cases hidle
  | sendTimer n =>
    obtain ⟨hany, heq⟩ := Option.ite_none_right_eq_some.mp hstep
    cases heq
    obtain ⟨e, hmem, he⟩ := List.any_eq_true.mp hany
    rw [Bool.and_eq_true, beq_iff_eq] at he
    exact hi.eraseEntry ⟨e, hmem, he.1⟩
  | waitTimer id =>
    obtain ⟨hany, heq⟩ := Option.ite_none_right_eq_some.mp hstep
    cases heq
    obtain ⟨h, hmem, hh⟩ := List.any_eq_true.mp hany
    rw [Bool.and_eq_true, beq_iff_eq] at hh
    exact hi.failWait ⟨h, hmem, hh.1⟩ fun _ _ => trivial
  | cancel n =>
    cases hstep
    exact hi.cancel n
  | frame id payload eof =>
    obtain ⟨-, heq⟩ := Option.ite_none_right_eq_some.mp hstep
    cases heq
    exact hi.frame hok
  | noFrame throws =>
    obtain ⟨-, heq⟩ := Option.ite_none_right_eq_some.mp hstep
    cases heq
    exact hi.flags rfl rfl (by simp) (by simp) (by simp) (by simp)
  | stop =>
    cases hstep
    exact hi.flags rfl rfl (fun _ => rfl) hi.phased.idle hi.phased.sent hi.phased.cleared
  | dropped =>
    obtain ⟨-, heq⟩ := Option.ite_none_right_eq_some.mp hstep
    cases heq
    exact hi.flags rfl rfl (fun _ => rfl) (by simp) (by simp) (by simp)
  | queueCleared =>
    obtain ⟨⟨hphase, hloop⟩, heq⟩ := Option.ite_none_right_eq_some.mp hstep
    cases heq
    -- The phase may only move on because the queue is empty by then, and nothing refills it.
    obtain ⟨hclear, hnil, herror⟩ := hi.clearQueue hloop
    refine hclear.flags rfl rfl (fun _ => ?_) (by simp) (fun _ => hnil) (by simp)
    rw [herror]
    exact hi.phased.error (.inl hphase)
  | stopped =>
    obtain ⟨hphase, heq⟩ := Option.ite_none_right_eq_some.mp hstep
    cases heq
    obtain ⟨hclear, hnil, herror, hpending⟩ := hi.clearOutstanding
    refine hclear.flags rfl rfl (fun _ => ?_) (by simp) (fun _ => ?_) (fun _ => hnil)
    · rw [herror]
      exact hi.phased.error (.inr (.inl hphase))
    · rw [hpending]
      exact hi.phased.sent (.inl hphase)

/-- An error reply that cannot be unmarshalled drops the promise of its call. -/
theorem decodable_of_correct {s t : Client V} {e : Event V} (hi : Inv s)
    (hstep : s.step e = some t) (ht : t.Correct) : s.Decodable e := by
  cases e with
  | frame id payload eof =>
    intro hneg ⟨h, hmem, hid⟩
    obtain ⟨-, heq⟩ := Option.ite_none_right_eq_some.mp hstep
    cases hun : unmarshalException payload with
    | some e => rfl
    | none =>
      exfalso
      have hfind : s.outstanding.find? (·.id == absId id) = some h := by
        cases hfind : s.outstanding.find? (·.id == absId id) with
        | none =>
          have hnone := List.find?_eq_none.mp hfind h hmem
          rw [hid] at hnone
          exact absurd (beq_self_eq_true _) hnone
        | some h' =>
          obtain ⟨hmem', hid'⟩ := find_id hfind
          rw [hi.waiting.eq_of_id hmem' hmem (hid'.trans hid.symm)]
      have hnpos : ¬ id ≥ 0 := by omega
      rw [Client.frame, hfind] at heq
      simp only [Client.handle, if_neg hnpos, hun] at heq
      cases heq
      -- the call waits and has no reply, but its handler is gone
      obtain ⟨hwaits, hnot⟩ := (hi.waiting.exactly h.call).mp ⟨h, hmem, rfl⟩
      obtain ⟨h', hmem', hcall⟩ := (ht.exactly h.call).mpr ⟨hwaits, hnot⟩
      obtain ⟨hmem', hne⟩ := mem_filter_id.mp hmem'
      rw [hi.waiting.eq_of_call hmem' hmem hcall] at hne
      exact hne hid
  | _ => exact trivial

/-- In every run, the reply promises are set as they should exactly if each error reply to an
outstanding call can be unmarshalled. -/
theorem calls_resolved_once (events : List (Event V)) :
    Always Client.step Client.Correct Client.create events ↔
      Guarded Client.step Client.Decodable Client.create events :=
  always_iff_guarded_of_inv Inv (fun _ h => h.correct) (fun _ _ _ hi hok hstep => hi.step hok hstep)
    (fun _ _ _ hi hstep ht => decodable_of_correct hi hstep ht) create_inv events

/-- An empty error reply to the only call. The call is never resolved, also not when the connection has
stopped. -/
theorem empty_error_reply_lost :
    ¬ ∀ events : List (Event Unit), Always Client.step Client.Correct Client.create events := by
  intro h
  have hlast := (h [.call true (fun _ => some ()) none false, .connected, .frame (-1) [] false,
    .dropped, .sendLoopEnds, .queueCleared, .stopped]).last rfl
  have hmem := ((hlast.ends rfl).2 0 _ rfl).1 rfl
  cases hmem

end Netstar.Proofs.Rpc.Client
