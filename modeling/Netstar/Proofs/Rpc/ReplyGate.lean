import Mathlib.Data.List.Nodup
import Netstar.Lib.Result
import Netstar.Spec.Rpc.ReplyGate

/-!
# `Netstar.Proofs.Rpc.ReplyGate`: when every request leaves the reply gate

`Balanced s rs` is the account of the gate: the requests `rs` are being processed, those of them that
are past the wait for memory have entered and not left, and all others have left as often as they
entered. An event takes one request in hand and puts it back, so the account is kept for a list that
need not be the list of the server.

The code loses one leave. A payload that does not have the arguments makes `unmarshall` throw in the
gated function itself, before there is a future to attach the leave to. What the handler throws is a
failed future, and what `reply` throws is thrown in a continuation or is caught.
-/

set_option autoImplicit false

namespace Netstar.Proofs.Rpc.ReplyGate

open Netstar.Lib
open Netstar.Spec.Rpc (Bytes)
open Netstar.Spec.Rpc.ReplyGate
open Netstar.Spec.Rpc.ReplyGate.Server (GateMatched Unmarshals)

/-- The request is in the gate. -/
def gated : Stage → Bool
  | .waiting => false
  | _ => true

variable {s : Server} {rs : List Active} {id : Nat} {frame : Frame} {stage : Stage}

/-- The account of the gate when the requests `rs` are being processed. -/
structure Balanced (s : Server) (rs : List Active) : Prop where
  nodup : (rs.map Active.id).Nodup
  fresh : ∀ r ∈ rs, r.id < s.arrived
  logged : ∀ p ∈ s.gateLog, p.1 < s.arrived
  running : ∀ r ∈ rs, s.gateLog.count (r.id, true) = (gated r.stage).toNat ∧
    s.gateLog.count (r.id, false) = 0
  ended : ∀ id, (∀ r ∈ rs, r.id ≠ id) →
    s.gateLog.count (id, false) = s.gateLog.count (id, true) ∧ s.gateLog.count (id, true) ≤ 1
  count : s.gate.count = (rs.countP fun r => gated r.stage : Nat)
  stopped : ∀ b, s.gate.stopped = some b → (b = true ↔ s.gate.count = 0)

/-- One more entry in the log. -/
theorem count_log (log : List (Nat × Bool)) (p q : Nat × Bool) :
    (log ++ [p]).count q = log.count q + if p = q then 1 else 0 := by
  rw [List.count_append, List.count_singleton]
  simp only [beq_iff_eq]

/-- A reply in a gated stage counts once. -/
theorem countP_gated (hstage : gated stage = true) :
    (⟨id, frame, stage⟩ :: rs).countP (fun r => gated r.stage) =
      rs.countP (fun r => gated r.stage) + 1 :=
  List.countP_cons_of_pos hstage

namespace Balanced

/-- The order of the active replies does not matter. -/
theorem perm {rs' : List Active} (h : Balanced s rs) (hperm : rs.Perm rs') : Balanced s rs' where
  nodup := (hperm.map _).nodup_iff.mp h.nodup
  fresh := fun r hr => h.fresh r (hperm.mem_iff.mpr hr)
  logged := h.logged
  running := fun r hr => h.running r (hperm.mem_iff.mpr hr)
  ended := fun id hid => h.ended id fun r hr => hid r (hperm.mem_iff.mp hr)
  count := by rw [h.count, hperm.countP_eq]
  stopped := h.stopped

/-- The request in hand is put back. -/
theorem put (h : Balanced s (⟨id, frame, stage⟩ :: s.active)) :
    Balanced (s.putStage id frame (some stage)) (s.putStage id frame (some stage)).active := by
  have hput := h.perm (List.perm_append_singleton _ _).symm
  exact ⟨hput.nodup, hput.fresh, hput.logged, hput.running, hput.ended, hput.count, hput.stopped⟩

/-- A connection that fails leaves the account of the gate as it is. -/
theorem fail (h : Balanced s rs) (conn : Nat) : Balanced (s.fail conn) rs :=
  ⟨h.nodup, h.fresh, h.logged, h.running, h.ended, h.count, h.stopped⟩

/-- The request in hand goes to another stage on the same side of the gate. -/
theorem restage {stage' : Stage} (h : Balanced s (⟨id, frame, stage⟩ :: rs))
    (hsame : gated stage' = gated stage) : Balanced s (⟨id, frame, stage'⟩ :: rs) where
  nodup := h.nodup
  fresh := by
    intro r hr
    rcases List.mem_cons.mp hr with rfl | hr
    · exact h.fresh ⟨id, frame, stage⟩ List.mem_cons_self
    · exact h.fresh r (List.mem_cons_of_mem _ hr)
  logged := h.logged
  running := by
    intro r hr
    rcases List.mem_cons.mp hr with rfl | hr
    · rw [hsame]
      exact h.running ⟨id, frame, stage⟩ List.mem_cons_self
    · exact h.running r (List.mem_cons_of_mem _ hr)
  ended := by
    intro id' hid
    refine h.ended id' fun r hr => ?_
    rcases List.mem_cons.mp hr with rfl | hr
    · exact hid ⟨id, frame, stage'⟩ List.mem_cons_self
    · exact hid r (List.mem_cons_of_mem _ hr)
  count := by
    rw [h.count, List.countP_cons, List.countP_cons]
    show _ = ((_ + if gated stage' = true then 1 else 0 : Nat) : Int)
    rw [hsame]
  stopped := h.stopped

/-- The request in hand ends before it entered the gate. -/
theorem drop (h : Balanced s (⟨id, frame, .waiting⟩ :: rs)) : Balanced s rs where
  nodup := (List.nodup_cons.mp h.nodup).2
  fresh := fun r hr => h.fresh r (List.mem_cons_of_mem _ hr)
  logged := h.logged
  running := fun r hr => h.running r (List.mem_cons_of_mem _ hr)
  ended := by
    intro id' hid
    by_cases heq : id = id'
    · subst heq
      obtain ⟨htrue, hfalse⟩ := h.running ⟨id, frame, .waiting⟩ List.mem_cons_self
      have hnone : s.gateLog.count (id, true) = 0 := htrue
      have hnot : s.gateLog.count (id, false) = 0 := hfalse
      omega
    · refine h.ended id' fun r hr => ?_
      rcases List.mem_cons.mp hr with rfl | hr
      · exact heq
      · exact hid r hr
  count := h.count
  stopped := h.stopped

/-- The other requests do not see an entry of the log. -/
theorem other_ne (h : Balanced s (⟨id, frame, stage⟩ :: rs)) {r : Active} (hr : r ∈ rs) :
    id ≠ r.id := fun heq => (List.nodup_cons.mp h.nodup).1 (List.mem_map.mpr ⟨r, hr, heq.symm⟩)

/-- The request in hand enters the gate. -/
theorem enter (h : Balanced s (⟨id, frame, .waiting⟩ :: rs)) (hopen : s.gate.stopped = none)
    (hstage : gated stage = true) :
    Balanced { s with
      gate := { s.gate with count := s.gate.count + 1 }
      gateLog := s.gateLog ++ [(id, true)] } (⟨id, frame, stage⟩ :: rs) where
  nodup := h.nodup
  fresh := by
    intro r hr
    rcases List.mem_cons.mp hr with rfl | hr
    · exact h.fresh ⟨id, frame, .waiting⟩ List.mem_cons_self
    · exact h.fresh r (List.mem_cons_of_mem _ hr)
  logged := by
    intro p hp
    rcases List.mem_append.mp hp with hp | hp
    · exact h.logged p hp
    · obtain rfl : p = (id, true) := by simpa using hp
      exact h.fresh ⟨id, frame, .waiting⟩ List.mem_cons_self
  running := by
    intro r hr
    simp only [count_log]
    rcases List.mem_cons.mp hr with rfl | hr
    · obtain ⟨htrue, hfalse⟩ := h.running ⟨id, frame, .waiting⟩ List.mem_cons_self
      have hnone : s.gateLog.count (id, true) = 0 := htrue
      have hnot : s.gateLog.count (id, false) = 0 := hfalse
      simp [hnone, hnot, hstage]
    · have hne := h.other_ne hr
      simpa [hne] using h.running r (List.mem_cons_of_mem _ hr)
  ended := by
    intro id' hid
    have hne : id ≠ id' := hid ⟨id, frame, stage⟩ List.mem_cons_self
    simp only [count_log]
    simp only [Prod.mk.injEq, hne, false_and, if_false, Nat.add_zero]
    refine h.ended id' fun r hr => ?_
    rcases List.mem_cons.mp hr with rfl | hr
    · exact hne
    · exact hid r (List.mem_cons_of_mem _ hr)
  count := by
    show s.gate.count + 1 = _
    rw [h.count, List.countP_cons_of_neg (by simp [gated]), countP_gated hstage]
    push_cast
    rfl
  stopped := by
    intro b hb
    have hb' : s.gate.stopped = some b := hb
    rw [hopen] at hb'
    cases hb'

/-- The request in hand leaves the gate and ends. -/
theorem leave (h : Balanced s (⟨id, frame, stage⟩ :: rs)) (hstage : gated stage = true) :
    Balanced (s.leave id) rs where
  nodup := (List.nodup_cons.mp h.nodup).2
  fresh := fun r hr => h.fresh r (List.mem_cons_of_mem _ hr)
  logged := by
    intro p hp
    rcases List.mem_append.mp hp with hp | hp
    · exact h.logged p hp
    · obtain rfl : p = (id, false) := by simpa using hp
      exact h.fresh ⟨id, frame, stage⟩ List.mem_cons_self
  running := by
    intro r hr
    have hne := h.other_ne hr
    simp only [Server.leave, count_log]
    simpa [hne] using h.running r (List.mem_cons_of_mem _ hr)
  ended := by
    intro id' hid
    simp only [Server.leave, count_log]
    by_cases heq : id = id'
    · subst heq
      obtain ⟨htrue, hfalse⟩ := h.running ⟨id, frame, stage⟩ List.mem_cons_self
      have hone : s.gateLog.count (id, true) = 1 := by rw [htrue, hstage]; rfl
      have hnot : s.gateLog.count (id, false) = 0 := hfalse
      simp [hone, hnot]
    · simp only [Prod.mk.injEq, heq, false_and, if_false, Nat.add_zero]
      refine h.ended id' fun r hr => ?_
      rcases List.mem_cons.mp hr with rfl | hr
      · exact heq
      · exact hid r hr
  count := by
    show s.gate.count - 1 = _
    rw [h.count, countP_gated hstage]
    push_cast
    omega
  stopped := by
    intro b hb
    have hb' : (if s.gate.count - 1 = 0 ∧ s.gate.stopped.isSome then some true
      else s.gate.stopped) = some b := hb
    show b = true ↔ s.gate.count - 1 = 0
    split at hb'
    · rename_i hzero
      cases hb'
      simp [hzero.1]
    · rename_i hnot
      -- The gate had this request in it, so the promise has no value yet.
      have hcount := h.count
      rw [countP_gated hstage] at hcount
      have hbefore := h.stopped b hb'
      have hne : ¬ s.gate.count - 1 = 0 := fun hzero => hnot ⟨hzero, by rw [hb']; rfl⟩
      have hpos : ¬ s.gate.count = 0 := by
        rw [hcount]
        push_cast
        omega
      tauto

/-- A request that arrives waits first. -/
theorem arrive (h : Balanced s rs) (frame : Frame) :
    Balanced { s with arrived := s.arrived + 1 } (⟨s.arrived, frame, .waiting⟩ :: rs) where
  nodup := by
    refine List.nodup_cons.mpr ⟨fun hmem => ?_, h.nodup⟩
    obtain ⟨r, hr, heq⟩ := List.mem_map.mp hmem
    exact absurd heq (Nat.ne_of_lt (h.fresh r hr))
  fresh := by
    intro r hr
    rcases List.mem_cons.mp hr with rfl | hr
    · exact Nat.lt_succ_self _
    · exact Nat.lt_succ_of_lt (h.fresh r hr)
  logged := fun p hp => Nat.lt_succ_of_lt (h.logged p hp)
  running := by
    intro r hr
    rcases List.mem_cons.mp hr with rfl | hr
    · have hnew : ∀ b, s.gateLog.count (s.arrived, b) = 0 := fun b =>
        List.count_eq_zero.mpr fun hmem => Nat.lt_irrefl _ (h.logged _ hmem)
      exact ⟨hnew true, hnew false⟩
    · exact h.running r hr
  ended := fun id hid => h.ended id fun r hr => hid r (List.mem_cons_of_mem _ hr)
  count := h.count
  stopped := h.stopped

/-- Closing the gate leaves its account as it is. -/
theorem close (h : Balanced s rs) :
    Balanced { s with gate := s.gate.close, errors := fun _ => true } rs where
  nodup := h.nodup
  fresh := h.fresh
  logged := h.logged
  running := h.running
  ended := h.ended
  count := h.count
  stopped := by
    intro b hb
    have hb' : some (s.gate.count == 0) = some b := hb
    cases hb'
    exact beq_iff_eq

/-- With all requests of the server in the list, every one that has ended has left. -/
theorem gateMatched (h : Balanced s s.active) : GateMatched s where
  matched := h.ended
  quiet := by
    intro hnil
    have hcount := h.count
    rw [hnil] at hcount
    refine ⟨hcount, fun hstopped => ?_⟩
    exact absurd ((h.stopped false hstopped).mpr hcount) (by decide)

/-- The request that an event is about, in hand. -/
theorem take {r : Active} {t : Server} (h : Balanced s s.active) (htake : s.take id = some (r, t)) :
    Balanced t (r :: t.active) ∧ r ∈ s.active ∧ r.id = id ∧ t.gate = s.gate ∧ t.errors = s.errors := by
  obtain ⟨r', hfind, heq⟩ := Option.map_eq_some_iff.mp htake
  cases heq
  have hmem := List.mem_of_find?_eq_some hfind
  have hid : r.id = id := by simpa using List.find?_some hfind
  have hperm : s.active.Perm (r :: s.active.filter fun r => !(r.id == id)) := by
    obtain ⟨l₁, l₂, hsplit⟩ := List.append_of_mem hmem
    have hnodup := h.nodup
    rw [hsplit, List.map_append, List.map_cons, List.perm_middle.nodup_iff, List.nodup_cons,
      ← List.map_append] at hnodup
    have hkeep : (l₁ ++ l₂).filter (fun r => !(r.id == id)) = l₁ ++ l₂ := by
      refine List.filter_eq_self.mpr fun q hq => ?_
      have hne : q.id ≠ id := fun heq => hnodup.1 (List.mem_map.mpr ⟨q, hq, heq.trans hid.symm⟩)
      simpa using hne
    rw [List.filter_append] at hkeep
    rw [hsplit, List.filter_append, List.filter_cons_of_neg (by simp [hid]), hkeep]
    exact List.perm_middle
  have hall := h.perm hperm
  exact ⟨⟨hall.nodup, hall.fresh, hall.logged, hall.running, hall.ended, hall.count, hall.stopped⟩,
    hmem, hid, rfl, rfl⟩

end Balanced

/-! ### `with_gate` -/

/-- An open gate is entered and counts one more. -/
theorem enter_open {g : Gate} (h : g.stopped = none) :
    g.enter = .ok { g with count := g.count + 1 } := by
  rw [Gate.enter, if_neg (by simp [h])]

/-- A gate that is closed refuses. -/
theorem enter_closed {g : Gate} {b : Bool} (h : g.stopped = some b) :
    g.enter = .error .gateClosed := by
  rw [Gate.enter, if_pos (by simp [h])]

/-- A gated function that returns a future is balanced, and so is a gate that is closed. -/
theorem withGate_ok {func : Except Thrown (Option Stage)} (h : Balanced s (⟨id, frame, .waiting⟩ :: s.active))
    (hfunc : s.gate.stopped = none → ∃ next, func = .ok next ∧ ∀ stage ∈ next, gated stage = true) :
    (s.withGate id func = (s, .error .gateClosed) ∧ Balanced s s.active) ∨
      ∃ t next, s.withGate id func = (t, .ok next) ∧
        Balanced (t.putStage id frame next) (t.putStage id frame next).active := by
  rw [Server.withGate]
  cases hstopped : s.gate.stopped with
  | some b =>
    rw [enter_closed hstopped]
    exact .inl ⟨rfl, h.drop⟩
  | none =>
    obtain ⟨next, rfl, hnext⟩ := hfunc hstopped
    rw [enter_open hstopped]
    right
    cases next with
    | none =>
      have hentered : Balanced _ (⟨id, frame, .replying⟩ :: s.active) := h.enter hstopped rfl
      exact ⟨_, none, rfl, hentered.leave rfl⟩
    | some stage => exact ⟨_, some stage, rfl, Balanced.put (h.enter hstopped (hnext stage rfl))⟩

/-- A gated function that throws: the request is gone and has not left. -/
theorem withGate_error {func : Except Thrown (Option Stage)} {e : Thrown}
    (h : Balanced s (⟨id, frame, .waiting⟩ :: s.active)) (hopen : s.gate.stopped = none)
    (hfunc : func = .error e) :
    ∃ t, s.withGate id func = (t, .error e) ∧ t.active = s.active ∧
      t.gateLog.count (id, true) = 1 ∧ t.gateLog.count (id, false) = 0 := by
  obtain ⟨htrue, hfalse⟩ := h.running ⟨id, frame, .waiting⟩ List.mem_cons_self
  have hnone : s.gateLog.count (id, true) = 0 := htrue
  have hnot : s.gateLog.count (id, false) = 0 := hfalse
  rw [Server.withGate, enter_open hopen, hfunc]
  refine ⟨_, rfl, rfl, ?_, ?_⟩
  · show (s.gateLog ++ [(id, true)]).count (id, true) = 1
    simp [hnone]
  · show (s.gateLog ++ [(id, true)]).count (id, false) = 0
    simp [hnot]

/-- Every stage of a response is gated. -/
theorem respond_gated (queued : Bool) : ∀ stage ∈ respond queued, gated stage = true := by
  cases queued <;> simp [respond, gated]

/-- The reply to a request that is too large does not throw. -/
theorem reply_ok (wait connError queued : Bool) :
    ∃ next, reply wait connError (some .runtimeError) none queued = .ok next ∧
      ∀ stage ∈ next, gated stage = true := by
  cases wait with
  | false => exact ⟨none, rfl, by simp⟩
  | true =>
    cases connError with
    | true => exact ⟨none, rfl, by simp⟩
    | false => exact ⟨respond queued, rfl, respond_gated queued⟩

/-- A reply that goes on is in the queue. -/
theorem reply_stage {wait connError queued : Bool} {ret marshall : Option Thrown}
    (h : reply wait connError ret marshall queued = .ok (some stage)) : stage = .replying := by
  have hrespond : respond queued = some stage → stage = .replying := by
    cases queued <;> simp [respond, eq_comm]
  unfold reply at h
  split at h
  · split at h
    · cases h
    · split at h
      · split at h
        · exact hrespond (Except.ok.inj h)
        · cases h
      · exact hrespond (Except.ok.inj h)
  · split at h
    · split at h <;> cases h
    · cases h

/-! ### Events -/

variable {V : Type} {cfg : Config V}

/-- A frame that arrives keeps the account of the gate. -/
theorem arrive_balanced (h : Balanced s s.active) (frame : Frame) (queued : Bool) :
    Balanced (s.arrive cfg frame queued) (s.arrive cfg frame queued).active := by
  have harrive := h.arrive frame
  rw [Server.arrive]
  cases cfg.handlers frame.type with
  | none => exact Balanced.put harrive
  | some verb =>
    dsimp only
    split
    · obtain ⟨next, hreply, hnext⟩ := reply_ok verb.wait (s.errors frame.conn) queued
      have hfunc : s.gate.stopped = none → ∃ next,
          reply verb.wait (s.errors frame.conn) (some .runtimeError) none queued = .ok next ∧
            ∀ stage ∈ next, gated stage = true := fun _ => ⟨next, hreply, hnext⟩
      rcases withGate_ok harrive hfunc with ⟨hgate, hbalanced⟩ | ⟨t, next, hgate, hbalanced⟩
      · rw [hgate]
        exact hbalanced.fail _
      · rw [hgate]
        exact hbalanced
    · exact Balanced.put harrive

/-- A request that is unmarshalled, or whose verb is unknown, or that finds the gate closed. -/
theorem granted_balanced (h : Balanced s (⟨id, frame, .waiting⟩ :: s.active))
    (hargs : s.gate.stopped = none → ∀ verb, cfg.handlers frame.type = some verb →
      ∃ args, doUnmarshall verb.args frame.payload = .ok args) (call : Except Thrown Fut)
    (queued : Bool) :
    Balanced (s.granted cfg id frame call queued) (s.granted cfg id frame call queued).active := by
  have hfunc : s.gate.stopped = none → ∃ next, Server.gated cfg frame call queued = .ok next ∧
      ∀ stage ∈ next, gated stage = true := by
    intro hopen
    rw [Server.gated]
    cases hverb : cfg.handlers frame.type with
    | none => exact ⟨respond queued, rfl, respond_gated queued⟩
    | some verb =>
      obtain ⟨args, hunmarshall⟩ := hargs hopen verb hverb
      dsimp only
      rw [hunmarshall]
      exact ⟨some (.handling (apply call)), rfl, by simp [gated]⟩
  rw [Server.granted]
  rcases withGate_ok h hfunc with ⟨hgate, hbalanced⟩ | ⟨t, next, hgate, hbalanced⟩
  · rw [hgate]
    exact hbalanced
  · rw [hgate]
    exact hbalanced

/-- A request whose payload does not have the arguments stays in the gate for ever. -/
theorem granted_unmatched (h : Balanced s (⟨id, frame, .waiting⟩ :: s.active))
    (hopen : s.gate.stopped = none) {verb : Verb V} (hverb : cfg.handlers frame.type = some verb)
    {e : Thrown} (hargs : doUnmarshall verb.args frame.payload = .error e)
    (call : Except Thrown Fut) (queued : Bool) :
    ¬ GateMatched (s.granted cfg id frame call queued) := by
  have hfunc : Server.gated cfg frame call queued = .error e := by
    rw [Server.gated, hverb]
    dsimp only
    rw [hargs]
  obtain ⟨t, hgate, hactive, htrue, hfalse⟩ := withGate_error h hopen hfunc
  have hnot : ∀ u : Server, u.active = t.active → u.gateLog = t.gateLog → ¬ GateMatched u := by
    intro u hu hlog hmatched
    have hgone : ∀ r ∈ u.active, r.id ≠ id := by
      rw [hu, hactive]
      exact fun r hr heq => h.other_ne hr heq.symm
    have hsame := (hmatched.matched id hgone).1
    rw [hlog, htrue, hfalse] at hsame
    cases hsame
  rw [Server.granted, hgate]
  split
  · exact hnot _ (by simp_all) (by simp_all)
  · exact hnot _ (by simp_all [Server.fail]) (by simp_all [Server.fail])
  · simp_all

/-- A handler that is done keeps the account of the gate. -/
theorem replied_balanced {ret marshall : Option Thrown} {queued : Bool} {fut : Fut}
    (h : Balanced s (⟨id, frame, .handling fut⟩ :: s.active)) :
    Balanced (s.replied cfg id frame ret marshall queued)
      (s.replied cfg id frame ret marshall queued).active := by
  rw [Server.replied]
  split
  · rename_i stage hreply
    obtain rfl := reply_stage hreply
    exact Balanced.put (h.restage rfl)
  · exact h.leave rfl

/-- What an event does to the account. -/
theorem step_spec {t : Server} {e : Event} (h : Balanced s s.active)
    (hstep : s.step cfg e = some t) :
    (Unmarshals cfg s e → Balanced t t.active) ∧ (GateMatched t → Unmarshals cfg s e) := by
  rw [Server.step.eq_def] at hstep
  cases e with
  | arrive frame queued =>
    dsimp only at hstep
    split at hstep
    · cases hstep
    · cases hstep
      exact ⟨fun _ => arrive_balanced h frame queued, fun _ => trivial⟩
  | granted id call queued =>
    dsimp only at hstep
    split at hstep
    · rename_i id' frame u htake
      cases hstep
      obtain ⟨hbalanced, hmem, rfl, hgate, -⟩ := h.take htake
      refine ⟨fun hok => granted_balanced hbalanced (fun hopen => ?_) call queued, ?_⟩
      · exact hok _ hmem rfl (hgate ▸ hopen)
      · intro hmatched r hr hid hopen verb hverb
        -- The number belongs to one request.
        obtain rfl : r = ⟨id', frame, .waiting⟩ := by
          have hsame := List.inj_on_of_nodup_map h.nodup hr hmem
          exact hsame hid
        cases hargs : doUnmarshall verb.args frame.payload with
        | ok args => exact ⟨args, rfl⟩
        | error e =>
          exact absurd hmatched
            (granted_unmatched hbalanced (hgate ▸ hopen) hverb hargs call queued)
    · cases hstep
  | denied id timedOut =>
    refine ⟨fun _ => ?_, fun _ => trivial⟩
    dsimp only at hstep
    split at hstep
    · rename_i id' frame u htake
      obtain ⟨hbalanced, -⟩ := h.take htake
      split at hstep
      · cases hstep
      · cases hstep
        rw [Server.denied]
        split
        · exact hbalanced.drop
        · exact hbalanced.drop.fail _
    · cases hstep
  | settled id ret =>
    refine ⟨fun _ => ?_, fun _ => trivial⟩
    dsimp only at hstep
    split at hstep
    · rename_i id' frame u htake
      cases hstep
      obtain ⟨hbalanced, -⟩ := h.take htake
      exact Balanced.put (hbalanced.restage rfl)
    · cases hstep
  | replied id marshall queued =>
    refine ⟨fun _ => ?_, fun _ => trivial⟩
    dsimp only at hstep
    split at hstep
    · rename_i id' frame ret u htake
      cases hstep
      obtain ⟨hbalanced, -⟩ := h.take htake
      exact replied_balanced hbalanced
    · cases hstep
  | sent id =>
    refine ⟨fun _ => ?_, fun _ => trivial⟩
    dsimp only at hstep
    split at hstep
    · rename_i id' frame u htake
      cases hstep
      obtain ⟨hbalanced, -⟩ := h.take htake
      exact hbalanced.leave rfl
    · cases hstep
  | connError conn =>
    cases hstep
    exact ⟨fun _ => h.fail conn, fun _ => trivial⟩
  | stop =>
    refine ⟨fun _ => ?_, fun _ => trivial⟩
    dsimp only at hstep
    split at hstep
    · cases hstep
    · cases hstep
      exact h.close

/-- The account of the gate of a new server is empty. -/
theorem create_balanced : Balanced Server.create Server.create.active where
  nodup := List.nodup_nil
  fresh := fun _ hr => nomatch hr
  logged := fun _ hp => nomatch hp
  running := fun _ hr => nomatch hr
  ended := fun _ _ => ⟨rfl, Nat.zero_le _⟩
  count := rfl
  stopped := fun _ hb => nomatch hb

/-- In a run of any requests on any server, every request that has ended has left the gate, exactly as
long as no request that has its memory has a payload without the arguments of its verb. -/
theorem gateMatched_iff (cfg : Config V) (es : List Event) :
    Always (Server.step cfg) GateMatched Server.create es ↔
      Guarded (Server.step cfg) (Unmarshals cfg) Server.create es :=
  always_iff_guarded_of_inv (fun s => Balanced s s.active) (fun _ hs => hs.gateMatched)
    (fun _ _ _ hs hok hstep => (step_spec hs hstep).1 hok)
    (fun _ _ _ hs hstep hmatched => (step_spec hs hstep).2 hmatched) create_balanced es

/-- A server with one verb, which has one argument of four bytes. -/
def oneVerb : Config Bytes where
  handlers := fun type => if type = 1 then some ⟨[⟨false, readBytes 4⟩], true⟩ else none
  limits := ⟨0, 1, 1000⟩

/-- A request without a payload stays in the gate, and `stop` waits for ever. -/
theorem not_gateMatched_short :
    ¬ Always (Server.step oneVerb) GateMatched Server.create
      [.arrive ⟨0, 1, false, []⟩ true, .granted 0 (.ok none) true, .stop] := by
  intro h
  have hquiet := (((h.2 _ rfl).2 _ rfl).2 _ rfl).quiet rfl
  exact absurd hquiet (by decide)

end Netstar.Proofs.Rpc.ReplyGate
