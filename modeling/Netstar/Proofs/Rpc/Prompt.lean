import Netstar.Proofs.Rpc.Client
import Netstar.Spec.Rpc.Prompt

/-!
# `Netstar.Proofs.Rpc.Prompt`: what a timer or a cancellable leaves unresolved

The send loop moves an entry out of the queue, stops its timer and takes the closure from its
cancellable, but the promise is only set when the write ends. So a timer or `cancel()` resolves the
reply promise of such a call at most, and the caller waits for the write.

The invariant of `calls_resolved_once` does not hold after an error reply that cannot be unmarshalled.
But no event reads the promises: `Live` says that the invariant would hold if such a promise had been
set, and every event keeps it. `Tracks` says that entries and handlers have the timers and closures that
the options of their calls ask for.
-/

set_option autoImplicit false

namespace Netstar.Proofs.Rpc.Prompt

open Netstar.Lib
open Netstar.Spec.Rpc
open Netstar.Spec.Rpc.Client
open Netstar.Spec.Rpc.Watched
open Netstar.Proofs.Rpc.Client

variable {V : Type}

/-! ### The history is only written -/

/-- The same connection with another history. -/
def withHistory (s : Client V) (r : List (Nat × Outcome V)) (a : List (Nat × Int × Bytes)) :
    Client V :=
  { s with replies := r, answered := a }

/-- The operation sets promises, and does nothing that depends on those that are set. -/
def Appends (f : Client V → Client V) (s : Client V) : Prop :=
  ∃ new, ∀ r a, f (withHistory s r a) = withHistory (f s) (r ++ new) a

/-- An operation that sets no promise. -/
theorem appends_of_eq {f : Client V → Client V} {s : Client V}
    (h : ∀ r a, f (withHistory s r a) = withHistory (f s) r a) : Appends f s := by
  refine ⟨[], fun r a => ?_⟩
  rw [List.append_nil]
  exact h r a

/-- Two operations that append to the history, one after the other, append to it. -/
theorem Appends.comp {f g : Client V → Client V} {s : Client V} (hf : Appends f s)
    (hg : Appends g (f s)) : Appends (fun s => g (f s)) s := by
  obtain ⟨new, hf⟩ := hf
  obtain ⟨new', hg⟩ := hg
  refine ⟨new ++ new', fun r a => ?_⟩
  show g (f (withHistory s r a)) = _
  rw [hf, hg, List.append_assoc]

/-- Dropping a handler appends to the history. -/
theorem appends_dropHandler (h : Handler V) (done : Bool) (s : Client V) :
    Appends (fun s => s.dropHandler h done) s := by
  cases done with
  | true => exact appends_of_eq fun _ _ => rfl
  | false => exact ⟨[(h.call, .closed)], fun _ _ => rfl⟩

/-- Failing a waiting call appends to the history. -/
theorem appends_failWait (i : Int) (o : Outcome V) (s : Client V) :
    Appends (fun s => s.failWait i o) s := by
  cases hfind : s.outstanding.find? (·.id == i) with
  | none =>
    refine appends_of_eq fun r a => ?_
    simp only [Client.failWait, withHistory, hfind]
  | some h =>
    refine ⟨[(h.call, o)], fun r a => ?_⟩
    simp only [Client.failWait, withHistory, hfind]
    rfl

/-- Erasing an entry appends to the history. -/
theorem appends_eraseEntry (n : Nat) (s : Client V) : Appends (fun s => s.eraseEntry n) s := by
  refine appends_of_eq fun r a => ?_
  cases hfind : s.outgoingQueue.find? (·.call == n) with
  | none => simp only [Client.eraseEntry, withHistory, hfind]
  | some e =>
    simp only [Client.eraseEntry, withHistory, hfind]
    rfl

/-- `cancel` runs the second closure in the state that the first one leaves. -/
theorem cancel_eq_elim (s : Client V) (n : Nat) {t : Client V}
    (ht : (if (s.cancels n).cancelSend then s.eraseEntry n else s) = t) :
    s.cancel n = (t.cancels n).cancelWait.elim t (t.failWait · .canceled) := by
  rw [Client.cancel, ht]
  cases (t.cancels n).cancelWait with
  | none => rfl
  | some id => rfl

/-- Cancelling appends to the history. -/
theorem appends_cancel (n : Nat) (s : Client V) : Appends (fun s => s.cancel n) s := by
  have herase : Appends (fun s => if (s.cancels n).cancelSend then s.eraseEntry n else s) s := by
    cases hsend : (s.cancels n).cancelSend with
    | false =>
      refine appends_of_eq fun r a => ?_
      simp only [withHistory, hsend]
      rfl
    | true =>
      obtain ⟨new, h⟩ := appends_eraseEntry n s
      refine ⟨new, fun r a => ?_⟩
      simpa only [withHistory, hsend, if_true] using h r a
  have hfail : ∀ t : Client V,
      Appends (fun t => (t.cancels n).cancelWait.elim t (t.failWait · .canceled)) t := by
    intro t
    cases hwait : (t.cancels n).cancelWait with
    | none =>
      refine appends_of_eq fun r a => ?_
      simp only [withHistory, hwait, Option.elim_none]
    | some id =>
      obtain ⟨new, h⟩ := appends_failWait id .canceled t
      refine ⟨new, fun r a => ?_⟩
      simpa only [withHistory, hwait, Option.elim_some] using h r a
  rw [show (fun s : Client V => s.cancel n) = _ from funext fun s => cancel_eq_elim s n rfl]
  exact herase.comp (hfail _)

/-- Sending appends to the history. -/
theorem appends_send (n : Nat) (timeout : Option Bool) (cancel : Bool) (s : Client V) :
    Appends (fun s => s.send n timeout cancel) s := by
  refine appends_of_eq fun r a => ?_
  simp only [Client.send]
  split
  · rfl
  · rfl

/-- Registering a handler appends to the history. -/
theorem appends_waitForReply (h : Handler V) (s : Client V) :
    Appends (fun s => s.waitForReply h) s := by
  cases hany : s.outstanding.any (·.id == h.id) with
  | true =>
    refine ⟨[(h.call, .closed)], fun r a => ?_⟩
    cases hp : h.pcancel with
    | true => simp [Client.waitForReply, withHistory, hp, hany, Client.dropHandler, Client.resolve]
    | false => simp [Client.waitForReply, withHistory, hp, hany, Client.dropHandler, Client.resolve]
  | false =>
    refine appends_of_eq fun r a => ?_
    cases hp : h.pcancel with
    | true => simp [Client.waitForReply, withHistory, hp, hany]
    | false => simp [Client.waitForReply, withHistory, hp, hany]

/-- A call appends to the history. -/
theorem appends_call (wait : Bool) (unmarshall : Bytes → Option V) (timeout : Option Bool)
    (cancel : Bool) (s : Client V) : Appends (fun s => s.call wait unmarshall timeout cancel) s := by
  cases herror : s.error with
  | true =>
    have hrejected : ∀ t : Client V, t.error = true → t.call wait unmarshall timeout cancel =
        (t.addCall none wait unmarshall).resolve t.calls.length .closed := by
      intro t ht
      rw [Client.call, if_pos ht]
    refine ⟨[(s.calls.length, .closed)], fun r a => ?_⟩
    show (withHistory s r a).call wait unmarshall timeout cancel =
      withHistory (s.call wait unmarshall timeout cancel) _ _
    rw [hrejected s herror]
    exact hrejected _ herror
  | false =>
    have hadd : Appends (fun s => s.addCall (some s.messageId) wait unmarshall) s :=
      appends_of_eq fun _ _ => rfl
    have hsend := hadd.comp (appends_send s.calls.length timeout cancel _)
    cases wait with
    | false =>
      obtain ⟨new, h⟩ := hsend
      refine ⟨new, fun r a => ?_⟩
      simpa only [Client.call, withHistory, herror, Bool.false_eq_true, if_false] using h r a
    | true =>
      obtain ⟨new, h⟩ := hsend.comp (appends_waitForReply
        ⟨s.messageId, s.calls.length, unmarshall, timeout.isSome, cancel⟩ _)
      refine ⟨new, fun r a => ?_⟩
      simpa only [Client.call, withHistory, herror, Bool.false_eq_true, if_false, if_true] using h r a

/-- An operation repeated over a list appends to the history when each of its steps does. -/
theorem appends_foldl {α : Type} {f : Client V → α → Client V}
    (hf : ∀ x s, Appends (fun s => f s x) s) (xs : List α) (s : Client V) :
    Appends (fun s => xs.foldl f s) s := by
  induction xs generalizing s with
  | nil => exact appends_of_eq fun _ _ => rfl
  | cons x xs ih => exact (hf x s).comp (ih _)

/-- Clearing the queue appends to the history. -/
theorem appends_clearQueue (s : Client V) : Appends Client.clearQueue s := by
  have hnone : Appends (fun s : Client V => { s with outgoingQueue := [] }) s :=
    appends_of_eq fun _ _ => rfl
  exact hnone.comp (appends_foldl (fun e s => appends_of_eq fun _ _ => rfl) s.outgoingQueue _)

/-- Clearing the outstanding calls appends to the history. -/
theorem appends_clearOutstanding (s : Client V) : Appends Client.clearOutstanding s := by
  have hnone : Appends (fun s : Client V => { s with outstanding := [] }) s :=
    appends_of_eq fun _ _ => rfl
  exact hnone.comp (appends_foldl (fun h s => appends_dropHandler h false s) s.outstanding _)

/-! ### Runs in which no promise is lost -/

/-- With the promises `r` and the replies `a` instead, the invariant holds. Only the promises that were
lost are set in addition. -/
structure Filled (s : Client V) (r : List (Nat × Outcome V)) (a : List (Nat × Int × Bytes)) :
    Prop where
  inv : Inv (withHistory s r a)
  mem : ∀ n, n ∈ r.map Prod.fst ↔ n ∈ s.replies.map Prod.fst ∨ Lost s n
  apart : ∀ n, Lost s n → n ∉ s.replies.map Prod.fst
  waits : ∀ n, Lost s n → s.Waits n

/-- The invariant would hold if the lost promises had been set. -/
def Live (s : Client V) : Prop := ∃ r a, Filled s r a

/-- Which calls are lost depends on the answers only. -/
theorem lost_congr {s t : Client V} (h : t.answered = s.answered) (n : Nat) :
    Lost t n ↔ Lost s n := by
  rw [Lost, Lost, h]

/-- The event `e` takes `s` to `t`, and does the same with every other history: it sets the same
promises, and adds the same frames. It loses no promise. -/
def Blind (s t : Client V) (e : Event V) : Prop :=
  ∃ new frames, (∀ n, Lost t n ↔ Lost s n) ∧ ∀ r a,
    (withHistory s r a).step e = some (withHistory t (r ++ new) (a ++ frames))

/-- An operation that appends to the history leaves the answers alone. -/
theorem Appends.answered {f : Client V → Client V} {s : Client V} (hf : Appends f s) :
    (f s).answered = s.answered := by
  obtain ⟨new, h⟩ := hf
  have hsame : f s = withHistory (f s) (s.replies ++ new) s.answered := h s.replies s.answered
  rw [hsame]
  rfl

/-- A step made of such an operation does not look at the history. -/
theorem Appends.blind {f : Client V → Client V} {s t : Client V} {e : Event V} (hf : Appends f s)
    (ht : t = f s) (he : ∀ r a, (withHistory s r a).step e = some (f (withHistory s r a))) :
    Blind s t e := by
  have hanswered := hf.answered
  obtain ⟨new, h⟩ := hf
  subst ht
  refine ⟨new, [], lost_congr hanswered, fun r a => ?_⟩
  rw [he, h, List.append_nil]

/-- An event that changes nothing of the history. -/
theorem blind_of_same {s t : Client V} {e : Event V} (ht : t.answered = s.answered)
    (he : ∀ r a, (withHistory s r a).step e = some (withHistory t r a)) : Blind s t e := by
  refine ⟨[], [], lost_congr ht, fun r a => ?_⟩
  rw [List.append_nil, List.append_nil]
  exact he r a

/-- The connection without the handler `h`, and with its closure reset. -/
def taken (s : Client V) (h : Handler V) : Client V := (takeHandler s h []).dropHandler h true

/-- A handler sets the same promise with every history. -/
theorem handle_withHistory (s : Client V) (h : Handler V) (id : Int) (payload : Bytes) :
    ∃ new throws, ∀ r a, handle (takeHandler (withHistory s r []) h a) h id payload =
      (withHistory (taken s h) (r ++ new) a, throws) := by
  by_cases hpos : id ≥ 0
  · cases hun : h.unmarshall payload with
    | some v =>
      refine ⟨[(h.call, .value v)], false, fun r a => ?_⟩
      simp only [handle, if_pos hpos, hun]
      rfl
    | none =>
      refine ⟨[(h.call, .closed)], true, fun r a => ?_⟩
      simp only [handle, if_pos hpos, hun]
      rfl
  · cases hun : unmarshalException payload with
    | some e =>
      refine ⟨[(h.call, .remote e)], false, fun r a => ?_⟩
      simp only [handle, if_neg hpos, hun]
      rfl
    | none =>
      refine ⟨[], true, fun r a => ?_⟩
      simp only [handle, if_neg hpos, hun, List.append_nil]
      rfl

/-- A frame that finds the handler `h`, with every history. -/
theorem frame_withHistory {s : Client V} {h : Handler V} {id : Int} {payload : Bytes} {eof : Bool}
    {new : List (Nat × Outcome V)} {throws : Bool}
    (hfind : s.outstanding.find? (·.id == absId id) = some h)
    (hhandle : ∀ r a, handle (takeHandler (withHistory s r []) h a) h id payload =
      (withHistory (taken s h) (r ++ new) a, throws)) (r : List (Nat × Outcome V))
    (a : List (Nat × Int × Bytes)) :
    (withHistory s r a).frame id payload eof =
      (withHistory (taken s h) (r ++ new) (a ++ [(h.call, id, payload)])).readNext
        (throws || eof) := by
  have hresult := hhandle r (a ++ [(h.call, id, payload)])
  rw [takeHandler, (find_id hfind).2, withHistory] at hresult
  rw [Client.frame]
  simp only [withHistory, hfind]
  rw [hresult]
  rfl

/-- The frames that found a handler, after one more. -/
theorem lost_append {s t : Client V} {m : Nat} {id : Int} {payload : Bytes}
    (ht : t.answered = s.answered ++ [(m, id, payload)]) (n : Nat) :
    Lost t n ↔ Lost s n ∨ n = m ∧ id < 0 ∧ unmarshalException payload = none := by
  rw [Lost, Lost, ht]
  constructor
  · rintro ⟨id', payload', hin, hrest⟩
    rcases List.mem_append.mp hin with hin | hin
    · exact .inl ⟨id', payload', hin, hrest⟩
    · obtain ⟨rfl, rfl, rfl⟩ : n = m ∧ id' = id ∧ payload' = payload := by simpa using hin
      exact .inr ⟨rfl, hrest⟩
  · rintro (⟨id', payload', hin, hrest⟩ | ⟨rfl, hrest⟩)
    · exact ⟨id', payload', List.mem_append_left _ hin, hrest⟩
    · exact ⟨id, payload, List.mem_append_right _ List.mem_cons_self, hrest⟩

/-- A frame is handled in the same way with every history, and it is added to the history. -/
theorem blind_frame {s : Client V} {id : Int} {payload : Bytes} {eof : Bool}
    (hok : s.Decodable (.frame id payload eof)) (hphase : s.phase = .reading) :
    Blind s (s.frame id payload eof) (.frame id payload eof) := by
  have hstep : ∀ r a, (withHistory s r a).step (.frame id payload eof) =
      some ((withHistory s r a).frame id payload eof) := fun r a => if_pos hphase
  cases hfind : s.outstanding.find? (·.id == absId id) with
  | none =>
    refine blind_of_same ?_ fun r a => ?_
    · rw [Client.frame, hfind]
      rfl
    · rw [hstep, Client.frame, Client.frame]
      simp only [withHistory, hfind]
      rfl
  | some h =>
    obtain ⟨new, throws, hhandle⟩ := handle_withHistory s h id payload
    have hsame : s.frame id payload eof = _ :=
      frame_withHistory hfind hhandle s.replies s.answered
    rw [hsame]
    refine ⟨new, [(h.call, id, payload)], fun n => ?_, fun r a => ?_⟩
    · rw [lost_append rfl, or_iff_left]
      rintro ⟨-, hneg, hnone⟩
      have hsome := hok hneg ⟨h, find_id hfind⟩
      rw [hnone] at hsome
      cases hsome
    · rw [hstep, frame_withHistory hfind hhandle]
      rfl

/-- An event that loses no promise does the same with every history. -/
theorem blind_step {s t : Client V} {e : Event V} (hok : s.Decodable e) (hstep : s.step e = some t) :
    Blind s t e := by
  cases e with
  | call wait unmarshall timeout cancel =>
    -- An event only appends to the history, or leaves it alone. It never reads it, and this is all
    -- that `Blind` asks.
    exact (appends_call wait unmarshall timeout cancel s).blind (Option.some.inj hstep).symm
      fun _ _ => rfl
  | connected =>
    obtain ⟨hphase, heq⟩ := Option.ite_none_right_eq_some.mp hstep
    cases heq
    exact blind_of_same rfl fun r a => if_pos hphase
  | connectFails =>
    obtain ⟨hphase, heq⟩ := Option.ite_none_right_eq_some.mp hstep
    cases heq
    exact blind_of_same rfl fun r a => if_pos hphase
  | pop =>
    rw [Client.step, Client.pop] at hstep
    split at hstep
    · rename_i d queue hloop hqueue
      cases hstep
      refine blind_of_same rfl fun r a => ?_
      rw [Client.step, Client.pop]
      simp only [withHistory, hloop, hqueue]
    · cases hstep
  | written ok =>
    rw [Client.step, Client.written] at hstep
    split at hstep
    · rename_i d hloop
      cases hstep
      refine blind_of_same rfl fun r a => ?_
      rw [Client.step, Client.written]
      simp only [withHistory, hloop]
      rfl
    · cases hstep
  | sendLoopEnds =>
    obtain ⟨hguard, heq⟩ := Option.ite_none_right_eq_some.mp hstep
    cases heq
    exact blind_of_same rfl fun r a => if_pos hguard
  | sendTimer n =>
    obtain ⟨hguard, heq⟩ := Option.ite_none_right_eq_some.mp hstep
    exact (appends_eraseEntry n s).blind (Option.some.inj heq).symm fun r a => if_pos hguard
  | waitTimer id =>
    obtain ⟨hguard, heq⟩ := Option.ite_none_right_eq_some.mp hstep
    exact (appends_failWait id .timeout s).blind (Option.some.inj heq).symm fun r a => if_pos hguard
  | cancel n =>
    exact (appends_cancel n s).blind (Option.some.inj hstep).symm fun _ _ => rfl
  | frame id payload eof =>
    obtain ⟨hphase, heq⟩ := Option.ite_none_right_eq_some.mp hstep
    cases heq
    exact blind_frame hok hphase
  | noFrame throws =>
    obtain ⟨hphase, heq⟩ := Option.ite_none_right_eq_some.mp hstep
    cases heq
    exact blind_of_same rfl fun r a => if_pos hphase
  | stop =>
    cases hstep
    exact blind_of_same rfl fun _ _ => rfl
  | dropped =>
    obtain ⟨hphase, heq⟩ := Option.ite_none_right_eq_some.mp hstep
    cases heq
    exact blind_of_same rfl fun r a => if_pos hphase
  | queueCleared =>
    obtain ⟨hguard, heq⟩ := Option.ite_none_right_eq_some.mp hstep
    have hphase : Appends (fun s : Client V => { s with phase := .closing }) s.clearQueue :=
      appends_of_eq fun _ _ => rfl
    exact ((appends_clearQueue s).comp hphase).blind (Option.some.inj heq).symm
      fun r a => if_pos hguard
  | stopped =>
    obtain ⟨hguard, heq⟩ := Option.ite_none_right_eq_some.mp hstep
    have hphase : Appends (fun s : Client V => { s with phase := .stopped }) s.clearOutstanding :=
      appends_of_eq fun _ _ => rfl
    exact ((appends_clearOutstanding s).comp hphase).blind (Option.some.inj heq).symm
      fun r a => if_pos hguard

/-! ### Entries and handlers leave -/

/-- What the invariant says of the objects of the calls. It does not speak of promises. -/
structure Shape (s : Client V) : Prop where
  entries : (pendingCalls s).Nodup
  handlers : (s.outstanding.map (·.call)).Nodup
  sendBound : ∀ e ∈ s.outgoingQueue, e.call < s.calls.length
  waitBound : ∀ h ∈ s.outstanding, h.call < s.calls.length
  sendClosures : ∀ n, (s.cancels n).cancelSend = true → ∃ e ∈ s.outgoingQueue, e.call = n
  waitClosures : ∀ n i, (s.cancels n).cancelWait = some i →
    ∃ h ∈ s.outstanding, h.call = n ∧ h.id = i

/-- The call of a queued entry is pending. -/
theorem mem_pendingCalls {s : Client V} {e : OutgoingEntry} (hmem : e ∈ s.outgoingQueue) :
    e.call ∈ pendingCalls s := by
  apply List.mem_map_of_mem
  rw [pending]
  split
  · exact List.mem_cons_of_mem _ hmem
  · exact hmem

/-- A live client has the shape that its queue and its handlers need. -/
theorem Live.shape {s : Client V} (hl : Live s) : Shape s := by
  obtain ⟨r, a, hf⟩ := hl
  have hw := hf.inv.waiting
  have hs := hf.inv.sending
  constructor
  · exact hs.calls
  · exact (List.Nodup.of_map (·.id) hw.ids).map_on fun h hmem h' hmem' => hw.eq_of_call hmem hmem'
  · intro e hmem
    exact Accepted.lt ((hs.exactly e.call).mp (@mem_pendingCalls _ (withHistory s r a) e hmem)).1
  · intro h hmem
    obtain ⟨c, hc, -⟩ := hw.known h hmem
    exact (List.getElem?_eq_some_iff.mp hc).1
  · intro n hn
    obtain ⟨e, hmem, hcall, -⟩ := hs.closures n hn
    exact ⟨e, hmem, hcall⟩
  · intro n i hn
    obtain ⟨h, hmem, hcall, hid, -⟩ := hw.closures n i hn
    exact ⟨h, hmem, hcall, hid⟩

/-- Entries and handlers leave, and those that stay keep their closures. -/
structure Shrinks (s t : Client V) : Prop where
  calls : t.calls = s.calls
  entries : ∀ e ∈ t.outgoingQueue, e ∈ s.outgoingQueue ∧
    (t.cancels e.call).cancelSend = (s.cancels e.call).cancelSend
  handlers : ∀ h ∈ t.outstanding, h ∈ s.outstanding ∧
    (t.cancels h.call).cancelWait = (s.cancels h.call).cancelWait

/-- Nothing leaves. -/
theorem shrinks_of_same {s t : Client V} (hcalls : t.calls = s.calls)
    (hqueue : t.outgoingQueue = s.outgoingQueue) (hout : t.outstanding = s.outstanding)
    (hcancels : t.cancels = s.cancels) : Shrinks s t := by
  refine ⟨hcalls, fun e hmem => ?_, fun h hmem => ?_⟩
  · rw [hqueue] at hmem
    exact ⟨hmem, by rw [hcancels]⟩
  · rw [hout] at hmem
    exact ⟨hmem, by rw [hcancels]⟩

/-- Shrinking twice is shrinking. -/
theorem Shrinks.trans {s t u : Client V} (h : Shrinks s t) (h' : Shrinks t u) : Shrinks s u := by
  refine ⟨h'.calls.trans h.calls, fun e hmem => ?_, fun d hmem => ?_⟩
  · obtain ⟨hmem', heq'⟩ := h'.entries e hmem
    obtain ⟨hmem'', heq⟩ := h.entries e hmem'
    exact ⟨hmem'', heq'.trans heq⟩
  · obtain ⟨hmem', heq'⟩ := h'.handlers d hmem
    obtain ⟨hmem'', heq⟩ := h.handlers d hmem'
    exact ⟨hmem'', heq'.trans heq⟩

/-- An entry is destroyed, and the entries that stay are of other calls. -/
theorem shrinks_dropEntry {s : Client V} {e : OutgoingEntry} {queue : List OutgoingEntry}
    {sendLoop : SendLoop} (hqueue : ∀ e' ∈ queue, e' ∈ s.outgoingQueue ∧ e'.call ≠ e.call) :
    Shrinks s { s with
      outgoingQueue := queue, sendLoop := sendLoop, cancels := resetSend s.cancels e } := by
  refine ⟨rfl, fun e' hmem => ?_, fun h hmem => ?_⟩
  · obtain ⟨hmem', hne⟩ := hqueue e' hmem
    refine ⟨hmem', ((resetSend_spec s.cancels e e'.call).2).trans ?_⟩
    rw [if_neg fun hown => hne hown.1]
  · exact ⟨hmem, (resetSend_spec s.cancels e h.call).1⟩

/-- Taking a handler out shrinks the client. -/
theorem shrinks_taken {s : Client V} {h : Handler V} (hmem : h ∈ s.outstanding)
    (hs : (s.outstanding.map (·.call)).Nodup) : Shrinks s (taken s h) := by
  refine ⟨rfl, fun e hin => ⟨hin, (resetWait_spec s.cancels h e.call).1⟩, fun h' hin => ?_⟩
  obtain ⟨hin', hne⟩ := mem_filter_id.mp hin
  refine ⟨hin', ((resetWait_spec s.cancels h h'.call).2).trans ?_⟩
  refine if_neg fun hown => hne ?_
  rw [List.inj_on_of_nodup_map hs hin' hmem hown.1]

/-- A timer or a cancellable ends the sending. -/
structure Unsent (s t : Client V) (n : Nat) : Prop where
  shrinks : Shrinks s t
  replies : SameReplies s t
  sendLoop : t.sendLoop = s.sendLoop
  gone : ∀ e ∈ t.outgoingQueue, e.call ≠ n

/-- After its entry is erased a call is not sent. -/
theorem unsent_eraseEntry {s : Client V} {n : Nat} (hex : ∃ e ∈ s.outgoingQueue, e.call = n) :
    Unsent s (s.eraseEntry n) n := by
  obtain ⟨e, -, rfl, heq⟩ := eraseEntry_eq hex
  have hqueue : ∀ e' ∈ s.outgoingQueue.filter (·.call != e.call),
      e' ∈ s.outgoingQueue ∧ e'.call ≠ e.call := by
    intro e' hmem
    simpa using hmem
  rw [heq]
  exact ⟨(@shrinks_dropEntry _ s e _ s.sendLoop hqueue).trans (shrinks_of_same rfl rfl rfl rfl),
    ⟨rfl, rfl, rfl, rfl, rfl, fun m => (resetSend_spec s.cancels e m).1⟩, rfl,
    fun e' hmem => (hqueue e' hmem).2⟩

/-- A timer or a cancellable ends the wait for the message `i`. -/
structure Unawaited (s t : Client V) (i : Int) : Prop where
  shrinks : Shrinks s t
  sends : SameSends s t
  answered : t.answered = s.answered
  gone : ∀ h ∈ t.outstanding, h.id ≠ i

/-- After its wait has failed an id is not awaited. -/
theorem unawaited_failWait {s : Client V} (hs : (s.outstanding.map (·.call)).Nodup) {i : Int}
    (hex : ∃ h ∈ s.outstanding, h.id = i) (o : Outcome V) : Unawaited s (s.failWait i o) i := by
  obtain ⟨h, hmem, rfl, heq⟩ := failWait_eq hex o
  rw [heq]
  exact ⟨(shrinks_taken hmem hs).trans (shrinks_of_same rfl rfl rfl rfl),
    ⟨rfl, rfl, rfl, rfl, fun m => (resetWait_spec s.cancels h m).1⟩, rfl,
    fun h' hin => (mem_filter_id.mp hin).2⟩

/-- The first half of `cancel()`. -/
def cancelSent (s : Client V) (n : Nat) : Client V :=
  if (s.cancels n).cancelSend then s.eraseEntry n else s

/-- Cancelling the send takes the call's entry out of the queue and touches nothing else. -/
theorem cancelSent_spec {s : Client V} (hs : Shape s) (n : Nat) :
    Shrinks s (cancelSent s n) ∧ SameReplies s (cancelSent s n) ∧
      (cancelSent s n).sendLoop = s.sendLoop ∧
      ((s.cancels n).cancelSend = true → ∀ e ∈ (cancelSent s n).outgoingQueue, e.call ≠ n) := by
  rw [cancelSent]
  split
  · rename_i hsend
    have hun := unsent_eraseEntry (hs.sendClosures n hsend)
    exact ⟨hun.shrinks, hun.replies, hun.sendLoop, fun _ => hun.gone⟩
  · rename_i hsend
    exact ⟨shrinks_of_same rfl rfl rfl rfl, ⟨rfl, rfl, rfl, rfl, rfl, fun _ => rfl⟩, rfl,
      fun hsend' => absurd hsend' hsend⟩

/-- `cancel()` calls the closures that are set. -/
theorem cancel_spec {s : Client V} (hs : Shape s) (n : Nat) :
    Shrinks s (s.cancel n) ∧ (s.cancel n).sendLoop = s.sendLoop ∧
      (s.cancel n).answered = s.answered ∧
      ((s.cancels n).cancelSend = true → ∀ e ∈ (s.cancel n).outgoingQueue, e.call ≠ n) ∧
      ∀ i, (s.cancels n).cancelWait = some i → ∀ h ∈ (s.cancel n).outstanding, h.id ≠ i := by
  obtain ⟨hshrinks, hsame, hloop, hgone⟩ := cancelSent_spec hs n
  have hcancel : s.cancel n = ((cancelSent s n).cancels n).cancelWait.elim (cancelSent s n)
      ((cancelSent s n).failWait · .canceled) := cancel_eq_elim s n rfl
  rw [hcancel, hsame.cancelWait n]
  cases hwait : (s.cancels n).cancelWait with
  | none => exact ⟨hshrinks, hloop, hsame.answered, hgone, fun i hi => by cases hi⟩
  | some i =>
    have hex : ∃ h ∈ (cancelSent s n).outstanding, h.id = i := by
      obtain ⟨h, hmem, -, hid⟩ := hs.waitClosures n i hwait
      rw [hsame.outstanding]
      exact ⟨h, hmem, hid⟩
    have hone := hs.handlers
    rw [← hsame.outstanding] at hone
    have hun := unawaited_failWait hone hex .canceled
    refine ⟨hshrinks.trans hun.shrinks, hun.sends.sendLoop.trans hloop,
      hun.answered.trans hsame.answered, fun hsend e hmem => ?_, fun i' hi => ?_⟩
    · exact hgone hsend e (by rw [← hun.sends.outgoingQueue]; exact hmem)
    · obtain rfl : i = i' := Option.some.inj hi
      exact hun.gone

/-- `_outgoing_queue.clear()` leaves the handlers. -/
theorem shrinks_clearQueue (s : Client V) : Shrinks s s.clearQueue := by
  have hfold : ∀ (queue : List OutgoingEntry) (t : Client V), t.outgoingQueue = [] →
      Shrinks t (queue.foldl Client.dropEntry t) := by
    intro queue
    induction queue with
    | nil => exact fun t _ => shrinks_of_same rfl rfl rfl rfl
    | cons e queue ih =>
      intro t ht
      have hdrop : Shrinks t (t.dropEntry e) := by
        refine ⟨rfl, fun e' hmem => ?_, fun h hmem => ⟨hmem, (resetSend_spec t.cancels e h.call).1⟩⟩
        have hmem' : e' ∈ t.outgoingQueue := hmem
        rw [ht] at hmem'
        cases hmem'
      exact hdrop.trans (ih (t.dropEntry e) ht)
  have hempty : Shrinks s { s with outgoingQueue := [] } :=
    ⟨rfl, fun e hmem => (nomatch hmem), fun h hmem => ⟨hmem, rfl⟩⟩
  exact hempty.trans (hfold s.outgoingQueue _ rfl)

/-- `_outstanding.clear()` leaves the entries. -/
theorem shrinks_clearOutstanding (s : Client V) : Shrinks s s.clearOutstanding := by
  have hfold : ∀ (hs : List (Handler V)) (t : Client V), t.outstanding = [] →
      Shrinks t (hs.foldl (fun t h => t.dropHandler h false) t) := by
    intro hs
    induction hs with
    | nil => exact fun t _ => shrinks_of_same rfl rfl rfl rfl
    | cons h hs ih =>
      intro t ht
      have hdrop : Shrinks t (t.dropHandler h false) := by
        refine ⟨rfl, fun e hmem => ⟨hmem, (resetWait_spec t.cancels h e.call).1⟩, fun h' hmem => ?_⟩
        have hmem' : h' ∈ t.outstanding := hmem
        rw [ht] at hmem'
        cases hmem'
      exact hdrop.trans (ih (t.dropHandler h false) ht)
  have hempty : Shrinks s { s with outstanding := [] } :=
    ⟨rfl, fun e hmem => ⟨hmem, rfl⟩, fun h hmem => (nomatch hmem)⟩
  exact hempty.trans (hfold s.outstanding _ rfl)

/-! ### Every event -/

/-- An event that is not a call. -/
theorem shrinks_step {s t : Client V} {e : Event V} (hs : Shape s) (hcall : newOptions e = [])
    (hstep : s.step e = some t) : Shrinks s t := by
  cases e with
  | call wait unmarshall timeout cancel => cases hcall
  | connected =>
    obtain ⟨-, heq⟩ := Option.ite_none_right_eq_some.mp hstep
    cases heq
    exact shrinks_of_same rfl rfl rfl rfl
  | connectFails =>
    obtain ⟨-, heq⟩ := Option.ite_none_right_eq_some.mp hstep
    cases heq
    exact shrinks_of_same rfl rfl rfl rfl
  | pop =>
    rw [Client.step, Client.pop] at hstep
    split at hstep
    · rename_i d queue hloop hqueue
      cases hstep
      -- The popped entry is in the queue once, so the rest of the queue keeps its entries.
      refine shrinks_dropEntry fun e hmem => ?_
      have hnodup := hs.entries
      rw [pendingCalls, pending, hloop, hqueue] at hnodup
      rw [hqueue]
      refine ⟨List.mem_cons_of_mem _ hmem, fun heq => (List.nodup_cons.mp hnodup).1 ?_⟩
      exact List.mem_map.mpr ⟨e, hmem, heq⟩
    · cases hstep
  | written ok =>
    rw [Client.step, Client.written] at hstep
    split at hstep
    · rename_i d hloop
      cases hstep
      refine (@shrinks_dropEntry _ s d s.outgoingQueue s.sendLoop fun e hmem => ?_).trans
        (shrinks_of_same rfl rfl rfl rfl)
      have hnodup := hs.entries
      rw [pendingCalls, pending, hloop] at hnodup
      refine ⟨hmem, fun heq => (List.nodup_cons.mp hnodup).1 ?_⟩
      exact List.mem_map.mpr ⟨e, hmem, heq⟩
    · cases hstep
  | sendLoopEnds =>
    obtain ⟨-, heq⟩ := Option.ite_none_right_eq_some.mp hstep
    cases heq
    exact shrinks_of_same rfl rfl rfl rfl
  | sendTimer n =>
    obtain ⟨hany, heq⟩ := Option.ite_none_right_eq_some.mp hstep
    cases heq
    obtain ⟨e, hmem, he⟩ := List.any_eq_true.mp hany
    rw [Bool.and_eq_true, beq_iff_eq] at he
    exact (unsent_eraseEntry ⟨e, hmem, he.1⟩).shrinks
  | waitTimer id =>
    obtain ⟨hany, heq⟩ := Option.ite_none_right_eq_some.mp hstep
    cases heq
    obtain ⟨h, hmem, hh⟩ := List.any_eq_true.mp hany
    rw [Bool.and_eq_true, beq_iff_eq] at hh
    exact (unawaited_failWait hs.handlers ⟨h, hmem, hh.1⟩ .timeout).shrinks
  | cancel n =>
    cases hstep
    exact (cancel_spec hs n).1
  | frame id payload eof =>
    obtain ⟨-, heq⟩ := Option.ite_none_right_eq_some.mp hstep
    cases heq
    cases hfind : s.outstanding.find? (·.id == absId id) with
    | none =>
      rw [Client.frame, hfind]
      exact shrinks_of_same rfl rfl rfl rfl
    | some h =>
      -- What the handler does to the history plays no part in what is still pending.
      obtain ⟨new, throws, hhandle⟩ := handle_withHistory s h id payload
      have hsame : s.frame id payload eof = _ :=
        frame_withHistory hfind hhandle s.replies s.answered
      rw [hsame]
      exact (shrinks_taken (find_id hfind).1 hs.handlers).trans (shrinks_of_same rfl rfl rfl rfl)
  | noFrame throws =>
    obtain ⟨-, heq⟩ := Option.ite_none_right_eq_some.mp hstep
    cases heq
    exact shrinks_of_same rfl rfl rfl rfl
  | stop =>
    cases hstep
    exact shrinks_of_same rfl rfl rfl rfl
  | dropped =>
    obtain ⟨-, heq⟩ := Option.ite_none_right_eq_some.mp hstep
    cases heq
    exact shrinks_of_same rfl rfl rfl rfl
  | queueCleared =>
    obtain ⟨-, heq⟩ := Option.ite_none_right_eq_some.mp hstep
    cases heq
    exact (shrinks_clearQueue s).trans (shrinks_of_same rfl rfl rfl rfl)
  | stopped =>
    obtain ⟨-, heq⟩ := Option.ite_none_right_eq_some.mp hstep
    cases heq
    exact (shrinks_clearOutstanding s).trans (shrinks_of_same rfl rfl rfl rfl)

/-- `Live` when the calls are the same or more. -/
theorem Filled.append {s t : Client V} {r new : List (Nat × Outcome V)}
    {a a' : List (Nat × Int × Bytes)} (hf : Filled s r a) (hinv : Inv (withHistory t (r ++ new) a'))
    (hcalls : ∃ more, t.calls = s.calls ++ more) (hreplies : t.replies = s.replies ++ new)
    (hlost : ∀ n, Lost t n ↔ Lost s n) : Live t := by
  have hnodup : ((r ++ new).map Prod.fst).Nodup := hinv.waiting.once
  rw [List.map_append] at hnodup
  refine ⟨r ++ new, a', hinv, fun n => ?_, fun n hn => ?_, fun n hn => ?_⟩
  · rw [hreplies, List.map_append, List.map_append, List.mem_append, List.mem_append, hf.mem,
      hlost, or_right_comm]
  · rw [hlost] at hn
    rw [hreplies, List.map_append, List.mem_append, not_or]
    have hin := (hf.mem n).mpr (.inr hn)
    exact ⟨hf.apart n hn, (List.nodup_append'.mp hnodup).2.2 hin⟩
  · obtain ⟨c, hc, hrest⟩ := hf.waits n ((hlost n).mp hn)
    obtain ⟨more, hmore⟩ := hcalls
    refine ⟨c, ?_, hrest⟩
    rw [hmore, List.getElem?_append_left (List.getElem?_eq_some_iff.mp hc).1]
    exact hc

/-- A call adds an entry and a handler with its options, and sets the closures of its cancellable. -/
structure Grows (s t : Client V) (n : Nat) (o : Options) : Prop where
  entries : ∀ e ∈ t.outgoingQueue, e ∈ s.outgoingQueue ∨
    e.call = n ∧ ⟨e.timer, e.pcancel⟩ = o ∧ (e.pcancel = true → (t.cancels n).cancelSend = true)
  handlers : ∀ h ∈ t.outstanding, h ∈ s.outstanding ∨
    h.call = n ∧ ⟨h.timer, h.pcancel⟩ = o ∧ (h.pcancel = true → (t.cancels n).cancelWait = some h.id)
  cancels : ∀ m, m ≠ n → t.cancels m = s.cancels m

/-- Sending adds at most an entry of the call, with the timer and the cancellable asked for. -/
theorem send_grows (s : Client V) (n : Nat) (timeout : Option Bool) (cancel : Bool) :
    Grows s (s.send n timeout cancel) n ⟨timeout.isSome, cancel⟩ ∧
      (s.send n timeout cancel).outstanding = s.outstanding ∧
      (s.send n timeout cancel).calls = s.calls := by
  rw [Client.send]
  split
  · exact ⟨⟨fun e hmem => .inl hmem, fun h hmem => .inl hmem, fun _ _ => rfl⟩, rfl, rfl⟩
  · refine ⟨⟨fun e hmem => ?_, fun h hmem => .inl hmem, fun m hne => ?_⟩, rfl, rfl⟩
    · rcases List.mem_append.mp hmem with hmem | hmem
      · exact .inl hmem
      · obtain rfl := List.mem_singleton.mp hmem
        refine .inr ⟨rfl, rfl, fun hp => ?_⟩
        have hcancel : cancel = true := hp
        simp [hcancel]
    · cases cancel with
      | false => rfl
      | true => exact Function.update_of_ne hne _ _

/-- The closure that `wait_for_reply` sets. -/
def setWait (cancels : Nat → Cancellable) (h : Handler V) : Nat → Cancellable :=
  if h.pcancel then Function.update cancels h.call { cancels h.call with cancelWait := some h.id }
  else cancels

/-- Setting the wait callback touches the cancellable of that call only. -/
theorem setWait_spec (cancels : Nat → Cancellable) (h : Handler V) :
    (∀ m, m ≠ h.call → setWait cancels h m = cancels m) ∧
      (setWait cancels h h.call).cancelSend = (cancels h.call).cancelSend ∧
      (h.pcancel = true → (setWait cancels h h.call).cancelWait = some h.id) := by
  rw [setWait]
  cases h.pcancel with
  | false => exact ⟨fun _ _ => rfl, rfl, fun hp => nomatch hp⟩
  | true =>
    refine ⟨fun m hne => Function.update_of_ne hne _ _, ?_, fun _ => ?_⟩
    · simp
    · simp

/-- Registering a handler drops the one that had its id. -/
theorem waitForReply_eq (t : Client V) (h : Handler V) :
    t.waitForReply h = if t.outstanding.any (·.id == h.id) then
        Client.dropHandler { t with cancels := setWait t.cancels h } h false
      else { t with outstanding := t.outstanding ++ [h], cancels := setWait t.cancels h } := by
  rw [Client.waitForReply, setWait]
  cases h.pcancel with
  | false => rfl
  | true => rfl

/-- Registering a handler adds at most that handler. -/
theorem waitForReply_grows {s t : Client V} {o : Options} {h : Handler V}
    (hg : Grows s t h.call o) (hout : t.outstanding = s.outstanding)
    (ho : ⟨h.timer, h.pcancel⟩ = o) :
    Grows s (t.waitForReply h) h.call o ∧ (t.waitForReply h).calls = t.calls := by
  obtain ⟨hother, hsend, hwait⟩ := setWait_spec t.cancels h
  rw [waitForReply_eq]
  split
  · -- the id is there already: the new handler closes its call
    have hreset := resetWait_spec (setWait t.cancels h) h
    refine ⟨⟨fun e hmem => ?_, fun h' hmem => .inl ?_, fun m hne => ?_⟩, rfl⟩
    · refine (hg.entries e hmem).imp_right fun ⟨hcall, heq, hp⟩ => ⟨hcall, heq, fun hset => ?_⟩
      rw [← hp hset, ← hsend]
      exact (hreset h.call).1
    · rw [← hout]
      exact hmem
    · rw [← hg.cancels m hne, ← hother m hne]
      show resetWait (setWait t.cancels h) h m = _
      rw [resetWait]
      split
      · exact Function.update_of_ne hne _ _
      · rfl
  · refine ⟨⟨fun e hmem => ?_, fun h' hmem => ?_, fun m hne => ?_⟩, rfl⟩
    · refine (hg.entries e hmem).imp_right fun ⟨hcall, heq, hp⟩ => ⟨hcall, heq, fun hset => ?_⟩
      rw [← hp hset]
      exact hsend
    · rcases List.mem_append.mp hmem with hmem | hmem
      · rw [hout] at hmem
        exact .inl hmem
      · obtain rfl := List.mem_singleton.mp hmem
        exact .inr ⟨rfl, ho, hwait⟩
    · exact (hother m hne).trans (hg.cancels m hne)

/-- A call is the same for the connection whether it fails at once or not, but for its objects. -/
theorem call_grows (s : Client V) (wait : Bool) (unmarshall : Bytes → Option V)
    (timeout : Option Bool) (cancel : Bool) :
    Grows s (s.call wait unmarshall timeout cancel) s.calls.length ⟨timeout.isSome, cancel⟩ ∧
      ∃ c, (s.call wait unmarshall timeout cancel).calls = s.calls ++ [c] := by
  rw [Client.call]
  cases s.error with
  | true =>
    exact ⟨⟨fun e hmem => .inl hmem, fun h hmem => .inl hmem, fun _ _ => rfl⟩, _, rfl⟩
  | false =>
    obtain ⟨hg, hout, hcalls⟩ :=
      send_grows (s.addCall (some s.messageId) wait unmarshall) s.calls.length timeout cancel
    have hsent : Grows s _ _ _ := ⟨hg.entries, hg.handlers, hg.cancels⟩
    cases wait with
    | false => exact ⟨hsent, _, hcalls⟩
    | true =>
      obtain ⟨hwait, hcalls'⟩ := @waitForReply_grows _ s _ _
        ⟨s.messageId, s.calls.length, unmarshall, timeout.isSome, cancel⟩ hsent hout rfl
      exact ⟨hwait, _, hcalls'.trans hcalls⟩

/-- The calls that were made stay. -/
theorem calls_step {s t : Client V} {e : Event V} (hs : Shape s) (hstep : s.step e = some t) :
    ∃ more, t.calls = s.calls ++ more ∧ more.length = (newOptions e).length := by
  by_cases hcall : newOptions e = []
  · exact ⟨[], by rw [(shrinks_step hs hcall hstep).calls, List.append_nil], by rw [hcall]; rfl⟩
  · cases e with
    | call wait unmarshall timeout cancel =>
      cases hstep
      obtain ⟨c, hc⟩ := (call_grows s wait unmarshall timeout cancel).2
      exact ⟨[c], hc, rfl⟩
    | _ => exact absurd rfl hcall

/-- An error reply that can be unmarshalled. -/
def unknownError : Bytes := [2, 0, 0, 0, 0, 0, 0, 0]

/-- The code of an unknown exception is read as one. -/
theorem unmarshal_unknownError : unmarshalException unknownError = some .unknown := by decide

/-- An error reply that cannot be unmarshalled. The handler could have set its promise. -/
theorem Filled.lose {s t : Client V} {r : List (Nat × Outcome V)} {a : List (Nat × Int × Bytes)}
    {e : Event V} (hf : Filled s r a) (hbad : ¬ s.Decodable e) (hstep : s.step e = some t) :
    Live t := by
  cases e with
  | frame id payload eof =>
    obtain ⟨hphase, heq⟩ := Option.ite_none_right_eq_some.mp hstep
    cases heq
    rw [Client.Decodable, Classical.not_imp, Classical.not_imp, Option.isSome_iff_ne_none,
      not_not] at hbad
    obtain ⟨hneg, ⟨h', hmem', hid'⟩, hnone⟩ := hbad
    cases hfind : s.outstanding.find? (·.id == absId id) with
    | none =>
      have hno := List.find?_eq_none.mp hfind h' hmem'
      rw [hid'] at hno
      exact absurd (beq_self_eq_true _) hno
    | some h =>
      obtain ⟨hmem, hid⟩ := find_id hfind
      have hnpos : ¬ id ≥ 0 := by omega
      -- the frame drops the handler, and another payload would have set its promise
      have hdrop : s.frame id payload eof =
          (withHistory (taken s h) s.replies (s.answered ++ [(h.call, id, payload)])).readNext true := by
        have hhandle : ∀ r a, handle (takeHandler (withHistory s r []) h a) h id payload =
            (withHistory (taken s h) (r ++ []) a, true) := by
          intro r a
          simp only [handle, if_neg hnpos, hnone, List.append_nil]
          rfl
        have heq := @frame_withHistory _ s h id payload eof _ _ hfind hhandle s.replies s.answered
        rw [List.append_nil, Bool.true_or] at heq
        exact heq
      have hset : (withHistory s r a).frame id unknownError true =
          (withHistory (taken s h) (r ++ [(h.call, .remote .unknown)])
            (a ++ [(h.call, id, unknownError)])).readNext true := by
        have hhandle : ∀ r a, handle (takeHandler (withHistory s r []) h a) h id unknownError =
            (withHistory (taken s h) (r ++ [(h.call, .remote .unknown)]) a, false) := by
          intro r a
          simp only [handle, if_neg hnpos, unmarshal_unknownError]
          rfl
        exact @frame_withHistory _ s h id unknownError true _ _ hfind hhandle r a
      have hinv := @Inv.frame _ (withHistory s r a) hf.inv id unknownError true fun _ _ => rfl
      rw [hset] at hinv
      rw [hdrop]
      obtain ⟨hwaits, hnot⟩ := (hf.inv.waiting.exactly h.call).mp ⟨h, hmem, rfl⟩
      rw [show (withHistory s r a).replies = r from rfl, hf.mem, not_or] at hnot
      refine ⟨r ++ [(h.call, Outcome.remote .unknown)], a ++ [(h.call, id, unknownError)], hinv,
        fun n => ?_, fun n hn => ?_, fun n hn => ?_⟩
      · rw [lost_append rfl, List.map_append, List.mem_append, hf.mem, or_assoc]
        exact or_congr Iff.rfl (by simp [hneg, hnone])
      · rcases (lost_append rfl n).mp hn with hn | ⟨rfl, -⟩
        · exact hf.apart n hn
        · exact hnot.1
      · rcases (lost_append rfl n).mp hn with hn | ⟨rfl, -⟩
        · exact hf.waits n hn
        · exact hwaits
  | _ => exact absurd trivial hbad

/-- Every step keeps the client live. -/
theorem Live.step {s t : Client V} {e : Event V} (hl : Live s) (hstep : s.step e = some t) :
    Live t := by
  have hcalls := calls_step hl.shape hstep
  obtain ⟨r, a, hf⟩ := hl
  by_cases hok : s.Decodable e
  · obtain ⟨new, frames, hlost, hblind⟩ := blind_step hok hstep
    have hinv : Inv (withHistory t (r ++ new) (a ++ frames)) :=
      @Inv.step _ (withHistory s r a) _ e hf.inv hok (hblind r a)
    have hsame : some t = some (withHistory t (s.replies ++ new) (s.answered ++ frames)) :=
      hstep.symm.trans (hblind s.replies s.answered)
    exact hf.append hinv (hcalls.imp fun _ h => h.1) (congrArg Client.replies (Option.some.inj hsame))
      hlost
  · exact hf.lose hok hstep

/-! ### The options of the calls -/

/-- Entries and handlers have the timers and closures that their calls ask for. -/
structure Tracks (s : Watched V) : Prop where
  length : s.options.length = s.client.calls.length
  entries : ∀ e ∈ s.client.outgoingQueue, s.options[e.call]? = some ⟨e.timer, e.pcancel⟩ ∧
    (e.pcancel = true → (s.client.cancels e.call).cancelSend = true)
  handlers : ∀ h ∈ s.client.outstanding, s.options[h.call]? = some ⟨h.timer, h.pcancel⟩ ∧
    (h.pcancel = true → (s.client.cancels h.call).cancelWait = some h.id)

/-- Shrinking keeps the timers and the cancellables of the calls. -/
theorem Tracks.shrinks {s t : Watched V} (ht : Tracks s) (hsame : t.options = s.options)
    (h : Shrinks s.client t.client) : Tracks t := by
  refine ⟨?_, fun e hmem => ?_, fun d hmem => ?_⟩
  · rw [hsame, h.calls]
    exact ht.length
  · obtain ⟨hmem, heq⟩ := h.entries e hmem
    rw [hsame, heq]
    exact ht.entries e hmem
  · obtain ⟨hmem, heq⟩ := h.handlers d hmem
    rw [hsame, heq]
    exact ht.handlers d hmem

/-- A call notes its timer and its cancellable. -/
theorem Tracks.call {s : Watched V} (ht : Tracks s) (hs : Shape s.client) (wait : Bool)
    (unmarshall : Bytes → Option V) (timeout : Option Bool) (cancel : Bool) :
    Tracks ⟨s.client.call wait unmarshall timeout cancel,
      s.options ++ [⟨timeout.isSome, cancel⟩]⟩ := by
  obtain ⟨hg, c, hc⟩ := call_grows s.client wait unmarshall timeout cancel
  have hnew : (s.options ++ [(⟨timeout.isSome, cancel⟩ : Options)])[s.client.calls.length]? =
      some ⟨timeout.isSome, cancel⟩ := by
    rw [← ht.length]
    exact List.getElem?_concat_length
  have hold : ∀ m, m < s.client.calls.length →
      (s.options ++ [(⟨timeout.isSome, cancel⟩ : Options)])[m]? = s.options[m]? := by
    intro m hlt
    rw [← ht.length] at hlt
    exact List.getElem?_append_left hlt
  refine ⟨?_, fun e hmem => ?_, fun h hmem => ?_⟩
  · rw [hc, List.length_append, List.length_append, ht.length]
    rfl
  · rcases hg.entries e hmem with hmem | ⟨hcall, ho, hp⟩
    · have hlt := hs.sendBound e hmem
      rw [hold _ hlt, hg.cancels _ (Nat.ne_of_lt hlt)]
      exact ht.entries e hmem
    · rw [hcall, ho]
      exact ⟨hnew, hp⟩
  · rcases hg.handlers h hmem with hmem | ⟨hcall, ho, hp⟩
    · have hlt := hs.waitBound h hmem
      rw [hold _ hlt, hg.cancels _ (Nat.ne_of_lt hlt)]
      exact ht.handlers h hmem
    · rw [hcall, ho]
      exact ⟨hnew, hp⟩

/-- The invariant. -/
structure Good (s : Watched V) : Prop where
  live : Live s.client
  tracks : Tracks s

/-- A new client meets the invariant. -/
theorem create_good : Good (Watched.create : Watched V) := by
  refine ⟨⟨[], [], create_inv, fun n => ?_, fun n hn => ?_, fun n hn => ?_⟩, rfl,
    fun e hmem => (nomatch hmem), fun h hmem => (nomatch hmem)⟩
  · have hnone : ¬ Lost (Client.create : Client V) n := fun ⟨_, _, hin, _⟩ => nomatch hin
    exact ⟨fun hin => (nomatch hin), fun hor => hor.elim id fun hlost => absurd hlost hnone⟩
  · obtain ⟨_, _, hin, -⟩ := hn
    cases hin
  · obtain ⟨_, _, hin, -⟩ := hn
    cases hin

/-- An event of the client keeps the invariant, with the options of a new call noted. -/
theorem Good.event {s t : Watched V} {e : Event V} (hg : Good s)
    (hstep : s.client.step e = some t.client) (ho : t.options = s.options ++ newOptions e) :
    Good t := by
  refine ⟨hg.live.step hstep, ?_⟩
  by_cases hcall : newOptions e = []
  · rw [hcall, List.append_nil] at ho
    exact hg.tracks.shrinks ho (shrinks_step hg.live.shape hcall hstep)
  · cases e with
    | call wait unmarshall timeout cancel =>
      have hcalled := hg.tracks.call hg.live.shape wait unmarshall timeout cancel
      obtain ⟨client, options⟩ := t
      cases hstep
      cases ho
      exact hcalled
    | _ => exact absurd rfl hcall

/-! ### The deadline of a call -/

/-- Firing the send timers of a call leaves no entry of it with a timer. -/
theorem run_sendTimers (s : Client V) (n : Nat) : ∃ t,
    run Client.step s (sendTimers s n) = some t ∧ SameReplies s t ∧ t.sendLoop = s.sendLoop ∧
      ∀ e ∈ t.outgoingQueue, e.call = n → e.timer = false := by
  rw [sendTimers]
  cases hany : s.outgoingQueue.any (fun e => e.call == n && e.timer) with
  | false =>
    refine ⟨s, rfl, ⟨rfl, rfl, rfl, rfl, rfl, fun _ => rfl⟩, rfl, fun e hmem hcall => ?_⟩
    have hnot := List.any_eq_false.mp hany e hmem
    simpa [hcall] using hnot
  | true =>
    obtain ⟨e, hmem, he⟩ := List.any_eq_true.mp hany
    rw [Bool.and_eq_true, beq_iff_eq] at he
    have hun := unsent_eraseEntry ⟨e, hmem, he.1⟩
    have hstep : s.step (.sendTimer n) = some (s.eraseEntry n) := if_pos hany
    refine ⟨s.eraseEntry n, run_cons.mpr ⟨_, hstep, rfl⟩, hun.replies, hun.sendLoop,
      fun e hmem hcall => absurd hcall (hun.gone e hmem)⟩

/-- A call has one handler, so one timer. -/
theorem waitTimers_eq {s : Client V} (hs : (s.outstanding.map (·.call)).Nodup) (n : Nat) :
    (waitTimers s n = [] ∧ ∀ h ∈ s.outstanding, h.call = n → h.timer = false) ∨
      ∃ h ∈ s.outstanding, h.call = n ∧ h.timer = true ∧ waitTimers s n = [.waitTimer h.id] := by
  have hin : ∀ h, h ∈ s.outstanding.filter (fun h => h.call == n && h.timer) ↔
      h ∈ s.outstanding ∧ h.call = n ∧ h.timer = true := by
    intro h
    rw [List.mem_filter, Bool.and_eq_true, beq_iff_eq]
  by_cases hex : ∃ h ∈ s.outstanding, h.call = n ∧ h.timer = true
  · obtain ⟨h, hmem, hcall, htimer⟩ := hex
    refine .inr ⟨h, hmem, hcall, htimer, ?_⟩
    have hperm : (s.outstanding.filter (fun h => h.call == n && h.timer)).Perm [h] := by
      refine (List.perm_ext_iff_of_nodup ((List.Nodup.of_map (·.call) hs).filter _)
        (List.nodup_singleton h)).mpr ?_
      intro h'
      rw [hin, List.mem_singleton]
      constructor
      · rintro ⟨hmem', hcall', -⟩
        exact List.inj_on_of_nodup_map hs hmem' hmem (hcall'.trans hcall.symm)
      · rintro rfl
        exact ⟨hmem, hcall, htimer⟩
    rw [waitTimers, List.perm_singleton.mp hperm]
    rfl
  · refine .inl ⟨?_, fun h hmem hcall => ?_⟩
    · rw [waitTimers, List.map_eq_nil_iff, List.filter_eq_nil_iff]
      intro h hmem hp
      exact hex ⟨h, ((hin h).mp (List.mem_filter.mpr ⟨hmem, hp⟩))⟩
    · cases htimer : h.timer with
      | false => rfl
      | true => exact absurd ⟨h, hmem, hcall, htimer⟩ hex

/-- Firing the wait timers of a call leaves no handler of it with a timer. -/
theorem run_waitTimers {s : Client V} (hs : (s.outstanding.map (·.call)).Nodup) (n : Nat) : ∃ t,
    run Client.step s (waitTimers s n) = some t ∧ SameSends s t ∧ t.answered = s.answered ∧
      ∀ h ∈ t.outstanding, h.call = n → h.timer = false := by
  rcases waitTimers_eq hs n with ⟨hnil, hnone⟩ | ⟨h, hmem, hcall, htimer, hone⟩
  · rw [hnil]
    exact ⟨s, rfl, ⟨rfl, rfl, rfl, rfl, fun _ => rfl⟩, rfl, hnone⟩
  · have hun := unawaited_failWait hs ⟨h, hmem, rfl⟩ .timeout
    have hstep : s.step (.waitTimer h.id) = some (s.failWait h.id .timeout) :=
      if_pos (List.any_eq_true.mpr ⟨h, hmem, by simp [htimer]⟩)
    rw [hone]
    refine ⟨_, run_cons.mpr ⟨_, hstep, rfl⟩, hun.sends, hun.answered, fun h' hmem' hcall' => ?_⟩
    have hin := (hun.shrinks.handlers h' hmem').1
    have hsame := List.inj_on_of_nodup_map hs hin hmem (hcall'.trans hcall.symm)
    exact absurd (congrArg Handler.id hsame) (hun.gone h' hmem')

/-- Both timers can run, in both orders. After that no timer of the call is armed, and everything else
about it is as before, but for the promises that are set. -/
theorem expire_spec {s : Client V} (hs : Shape s) (n : Nat) (sendFirst : Bool)
    (harmed : sendTimers s n ≠ [] ∨ waitTimers s n ≠ []) :
    ∃ c, expire s n sendFirst = some c ∧ c.calls = s.calls ∧ c.sendLoop = s.sendLoop ∧
      c.answered = s.answered ∧ (∀ e ∈ c.outgoingQueue, e.call = n → e.timer = false) ∧
      ∀ h ∈ c.outstanding, h.call = n → h.timer = false := by
  have hnonempty : (if sendFirst then sendTimers s n ++ waitTimers s n
      else waitTimers s n ++ sendTimers s n).isEmpty = false := by
    rw [List.isEmpty_eq_false_iff]
    cases sendFirst with
    | true =>
      show sendTimers s n ++ waitTimers s n ≠ []
      rwa [Ne, List.append_eq_nil_iff, Classical.not_and_iff_not_or_not]
    | false =>
      show waitTimers s n ++ sendTimers s n ≠ []
      rwa [Ne, List.append_eq_nil_iff, Classical.not_and_iff_not_or_not, or_comm]
  simp only [expire, hnonempty, Bool.false_eq_true, if_false]
  cases sendFirst with
  | true =>
    obtain ⟨t, hrun, hsame, hloop, hentries⟩ := run_sendTimers s n
    have hone := hs.handlers
    rw [← hsame.outstanding] at hone
    obtain ⟨c, hrun', hsends, hanswered, hhandlers⟩ := run_waitTimers hone n
    -- What the first timer does leaves the other one armed as it was.
    have htimers : waitTimers t n = waitTimers s n := by
      rw [waitTimers, waitTimers, hsame.outstanding]
    rw [htimers] at hrun'
    rw [hsends.outgoingQueue.symm] at hentries
    exact ⟨c, run_append.mpr ⟨t, hrun, hrun'⟩, hsends.calls.trans hsame.calls,
      hsends.sendLoop.trans hloop, hanswered.trans hsame.answered, hentries, hhandlers⟩
  | false =>
    obtain ⟨t, hrun, hsends, hanswered, hhandlers⟩ := run_waitTimers hs.handlers n
    obtain ⟨c, hrun', hsame, hloop, hentries⟩ := run_sendTimers t n
    have htimers : sendTimers t n = sendTimers s n := by
      rw [sendTimers, sendTimers, hsends.outgoingQueue]
    rw [htimers] at hrun'
    rw [hsame.outstanding.symm] at hhandlers
    exact ⟨c, run_append.mpr ⟨t, hrun, hrun'⟩, hsame.calls.trans hsends.calls,
      hloop.trans hsends.sendLoop, hsame.answered.trans hanswered, hentries, hhandlers⟩

/-- A deadline is a deadline of a call with a timer that is armed. -/
theorem armed_of_expire {s c : Client V} {n : Nat} {sendFirst : Bool}
    (h : expire s n sendFirst = some c) : sendTimers s n ≠ [] ∨ waitTimers s n ≠ [] := by
  by_contra hnone
  rw [not_or, not_not, not_not] at hnone
  simp [expire, hnone.1, hnone.2] at h

/-- The timers are events that are not calls. -/
theorem Good.expire {s : Watched V} (hg : Good s) {n : Nat} {sendFirst : Bool} {c : Client V}
    (h : Watched.expire s.client n sendFirst = some c) : Good ⟨c, s.options⟩ := by
  have hrun : run Client.step s.client (if sendFirst then
      sendTimers s.client n ++ waitTimers s.client n
      else waitTimers s.client n ++ sendTimers s.client n) = some c := by
    rw [Watched.expire] at h
    exact (Option.ite_none_left_eq_some.mp h).2
  refine run_invariant (fun c => Good ⟨c, s.options⟩) (fun e he t u hgood hstep => ?_) hg hrun
  have hcall : newOptions e = [] := by
    have hin : e ∈ sendTimers s.client n ∨ e ∈ waitTimers s.client n := by
      cases sendFirst with
      | true => exact List.mem_append.mp he
      | false => exact (List.mem_append.mp he).symm
    rcases hin with hin | hin
    · rw [sendTimers] at hin
      split at hin
      · rw [List.mem_singleton.mp hin]
        rfl
      · cases hin
    · obtain ⟨h, -, rfl⟩ := List.mem_map.mp hin
      rfl
  exact @Good.event _ ⟨t, s.options⟩ ⟨u, s.options⟩ e hgood hstep (by rw [hcall, List.append_nil])

/-! ### What is resolved -/

/-- A message that is not in the queue is pending while it is written. -/
theorem mem_pendingCalls_iff {s : Client V} {n : Nat}
    (hentries : ∀ e ∈ s.outgoingQueue, e.call ≠ n) : n ∈ pendingCalls s ↔ BeingWritten s n := by
  have hqueue : n ∉ s.outgoingQueue.map (·.call) := by
    intro hin
    obtain ⟨e, hmem, hcall⟩ := List.mem_map.mp hin
    exact hentries e hmem hcall
  have hnone : (∀ d, s.sendLoop ≠ .writing d) → pendingCalls s = s.outgoingQueue.map (·.call) := by
    intro hloop
    rw [pendingCalls, pending]
    split
    · rename_i d hd
      exact absurd hd (hloop d)
    · rfl
  rw [BeingWritten]
  constructor
  · intro hin
    by_contra hnot
    cases hloop : s.sendLoop with
    | writing d =>
      rw [pendingCalls, pending, hloop] at hin
      rcases List.mem_cons.mp hin with rfl | hin
      · exact hnot ⟨d, hloop, rfl⟩
      · exact hqueue hin
    | _ =>
      rw [hnone fun d hd => by rw [hloop] at hd; cases hd] at hin
      exact hqueue hin
  · rintro ⟨d, hloop, rfl⟩
    rw [pendingCalls, pending, hloop]
    exact List.mem_cons_self

/-- The future of a call without an entry and a handler. -/
theorem resolved_iff {s : Client V} (hl : Live s) {n : Nat} (hn : n < s.calls.length)
    (hentries : ∀ e ∈ s.outgoingQueue, e.call ≠ n) (hhandlers : ∀ h ∈ s.outstanding, h.call ≠ n) :
    Resolved s n ↔ ¬ BeingWritten s n ∧ ¬ Lost s n := by
  obtain ⟨r, a, hf⟩ := hl
  obtain ⟨c, hc⟩ : ∃ c, s.calls[n]? = some c := ⟨_, List.getElem?_eq_getElem hn⟩
  have hpending := mem_pendingCalls_iff hentries
  have hsends : n ∈ pendingCalls s ↔ s.Accepted n ∧ n ∉ s.sends := hf.inv.sending.exactly n
  -- The reply of a waiting call without a handler has been set, unless its handler was lost.
  have hreplies : s.Waits n → (n ∈ s.replies.map Prod.fst ↔ ¬ Lost s n) := by
    intro hwaits
    have hin : n ∈ r.map Prod.fst := by
      by_contra hnot
      obtain ⟨h, hmem, hcall⟩ := (hf.inv.waiting.exactly n).mpr ⟨hwaits, hnot⟩
      exact hhandlers h hmem hcall
    constructor
    · exact fun hset hlost => hf.apart n hlost hset
    · exact fun hnot => ((hf.mem n).mp hin).resolve_right hnot
  have hresolved : Resolved s n ↔
      (c.id.isSome = true → n ∈ s.sends ∧ (c.wait = true → n ∈ s.replies.map Prod.fst)) := by
    constructor
    · rintro ⟨d, hd, hrest⟩
      obtain rfl : c = d := Option.some.inj (hc.symm.trans hd)
      exact hrest
    · exact fun hrest => ⟨c, hc, hrest⟩
  have hlost : Lost s n → c.id.isSome = true ∧ c.wait = true := by
    intro hlost
    obtain ⟨d, hd, hwait, hid⟩ := hf.waits n hlost
    obtain rfl : c = d := Option.some.inj (hc.symm.trans hd)
    exact ⟨hid, hwait⟩
  have haccepted : s.Accepted n ↔ c.id.isSome = true := by
    constructor
    · rintro ⟨d, hd, hid⟩
      obtain rfl : c = d := Option.some.inj (hc.symm.trans hd)
      exact hid
    · exact fun hid => ⟨c, hc, hid⟩
  rw [hresolved, ← hpending, hsends, haccepted]
  constructor
  · intro hrest
    refine ⟨fun ⟨hid, hnot⟩ => hnot (hrest hid).1, fun hl => ?_⟩
    obtain ⟨hid, hwait⟩ := hlost hl
    exact hf.apart n hl ((hrest hid).2 hwait)
  · rintro ⟨hsent, hnot⟩ hid
    refine ⟨?_, fun hwait => (hreplies ⟨c, hc, hwait, hid⟩).mpr hnot⟩
    by_contra hunsent
    exact hsent ⟨hid, hunsent⟩

/-- A deadline. -/
theorem resolved_expire_iff {s : Watched V} (hg : Good s) {n : Nat} {sendFirst : Bool}
    {c : Client V} (h : Watched.expire s.client n sendFirst = some c) :
    Resolved c n ↔ ¬ BeingWritten s.client n ∧ ¬ Lost s.client n := by
  have hs := hg.live.shape
  have harmed := armed_of_expire h
  obtain ⟨c', hc', hcalls, hloop, hanswered, hentries, hhandlers⟩ := expire_spec hs n sendFirst harmed
  obtain rfl : c' = c := Option.some.inj (hc'.symm.trans h)
  have hgood := hg.expire h
  -- Only a call with a deadline has a timer that can run.
  have htimeout : ∃ o, s.options[n]? = some o ∧ o.timeout = true := by
    rcases harmed with harmed | harmed
    · rw [sendTimers] at harmed
      split at harmed
      · rename_i hany
        obtain ⟨e, hmem, he⟩ := List.any_eq_true.mp hany
        rw [Bool.and_eq_true, beq_iff_eq] at he
        have ho := (hg.tracks.entries e hmem).1
        rw [he.1] at ho
        exact ⟨_, ho, he.2⟩
      · exact absurd rfl harmed
    · rcases waitTimers_eq hs.handlers n with ⟨hnil, -⟩ | ⟨d, hmem, rfl, htimer, -⟩
      · exact absurd hnil harmed
      · exact ⟨_, (hg.tracks.handlers d hmem).1, htimer⟩
  obtain ⟨o, ho, htimer⟩ := htimeout
  have hlt : n < c'.calls.length := by
    rw [hcalls, ← hg.tracks.length]
    exact (List.getElem?_eq_some_iff.mp ho).1
  rw [resolved_iff hgood.live hlt ?_ ?_, BeingWritten, BeingWritten, Lost, Lost, hloop, hanswered]
  · rintro e hmem rfl
    have ho' := (hgood.tracks.entries e hmem).1
    rw [Option.some.inj (ho.symm.trans ho')] at htimer
    rw [hentries e hmem rfl] at htimer
    cases htimer
  · rintro d hmem rfl
    have ho' := (hgood.tracks.handlers d hmem).1
    rw [Option.some.inj (ho.symm.trans ho')] at htimer
    rw [hhandlers d hmem rfl] at htimer
    cases htimer

/-- `cancel()`. -/
theorem resolved_cancel_iff {s : Watched V} (hg : Good s) {n : Nat} (hn : s.HasCancellable n) :
    Resolved (s.client.cancel n) n ↔ ¬ BeingWritten s.client n ∧ ¬ Lost s.client n := by
  have hs := hg.live.shape
  obtain ⟨hshrinks, hloop, hanswered, hentries, hhandlers⟩ := cancel_spec hs n
  obtain ⟨o, ho, hcancel⟩ := hn
  have hlive : Live (s.client.cancel n) := @Live.step _ s.client _ (.cancel n) hg.live rfl
  have hlt : n < (s.client.cancel n).calls.length := by
    rw [hshrinks.calls, ← hg.tracks.length]
    exact (List.getElem?_eq_some_iff.mp ho).1
  rw [resolved_iff hlive hlt ?_ ?_, BeingWritten, BeingWritten, Lost, Lost, hloop, hanswered]
  · rintro e hmem rfl
    obtain ⟨ho', hset⟩ := hg.tracks.entries e (hshrinks.entries e hmem).1
    rw [Option.some.inj (ho.symm.trans ho')] at hcancel
    exact hentries (hset hcancel) e hmem rfl
  · rintro h hmem rfl
    obtain ⟨ho', hset⟩ := hg.tracks.handlers h (hshrinks.handlers h hmem).1
    rw [Option.some.inj (ho.symm.trans ho')] at hcancel
    exact hhandlers h.id (hset hcancel) h hmem rfl

/-- A moment takes effect at once exactly when the frame is not being written and no reply was lost.
-/
theorem prompt_iff {s t : Watched V} {l : Moment V} (hg : Good s) (hstep : s.step l = some t) :
    s.Prompt l ↔ s.Free l := by
  cases l with
  | event e =>
    cases e with
    | cancel n => exact forall_congr' fun hn => resolved_cancel_iff hg hn
    | _ => exact Iff.rfl
  | deadline n sendFirst =>
    obtain ⟨c, hc, -⟩ := Option.map_eq_some_iff.mp hstep
    rw [Watched.Free, ← resolved_expire_iff hg hc]
    constructor
    · exact fun h => h c hc
    · intro h c' hc'
      obtain rfl : c = c' := Option.some.inj (hc.symm.trans hc')
      exact h

/-- Every moment keeps the invariant. -/
theorem Good.step {s t : Watched V} {l : Moment V} (hg : Good s) (hstep : s.step l = some t) :
    Good t := by
  cases l with
  | event e =>
    have hevent : (s.client.step e).map (fun c => (⟨c, s.options ++ newOptions e⟩ : Watched V)) =
        some t := by
      cases e with
      | sendTimer n => cases hstep
      | waitTimer id => cases hstep
      | _ => exact hstep
    obtain ⟨c, hc, rfl⟩ := Option.map_eq_some_iff.mp hevent
    exact hg.event hc rfl
  | deadline n sendFirst =>
    obtain ⟨c, hc, rfl⟩ := Option.map_eq_some_iff.mp hstep
    exact hg.expire hc

/-- In every run, deadlines and `cancel()` resolve the future of their call exactly if its frame is not
being written then, and its reply was not lost. -/
theorem futures_prompt_iff (moments : List (Moment V)) :
    Guarded Watched.step Watched.Prompt Watched.create moments ↔
      Guarded Watched.step Watched.Free Watched.create moments :=
  guarded_congr_of_guarded (g := fun _ _ => True) Good (fun _ _ _ hg _ hstep => hg.step hstep)
    (fun _ _ _ hg _ hstep => prompt_iff hg hstep) create_good
    (guarded_of_forall (fun _ _ _ => trivial) _)

/-- A peer that does not read blocks the write of the only call. Its deadline passes, and the reply
promise is set, but the caller waits for the write. -/
theorem blocked_write_not_prompt :
    ¬ ∀ moments : List (Moment Unit),
      Guarded Watched.step Watched.Prompt Watched.create moments := by
  intro h
  have hrun := h [.event (.call true (fun _ => some ()) (some false) false), .event .connected,
    .event .pop, .deadline 0 true]
  have hprompt := ((hrun _ rfl).2 _ rfl).2 _ rfl
  obtain ⟨c, hc, hsent⟩ := (hprompt.2 _ rfl).1 _ rfl
  cases hc
  exact absurd (hsent rfl).1 (by decide)

end Netstar.Proofs.Rpc.Prompt
