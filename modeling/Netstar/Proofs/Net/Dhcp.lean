import Netstar.Lib.Run
import Netstar.Spec.Net.Dhcp
import Netstar.Proofs.Net.DhcpOptions

/-!
# `Netstar.Proofs.Net.Dhcp`: packets that the client should ignore

`process_packet` cancels the timer that sends again before it looks at the packet, and nothing starts it
again. So every packet that is processed in the states DISCOVER and REQUEST takes the retry away, also
one of the wrong type and one that is part of the exchange. The transaction id of a packet is not read
at all: an offer to another client is taken like one to this client.
-/

set_option autoImplicit false

namespace Netstar.Proofs.Net.Dhcp

open Netstar.Lib
open Netstar.Spec.Net.Dhcp

/-- The message types that the state waits for. -/
def expected : State → Nat → Bool
  | .discover, type => type == MsgType.offer
  | .request, type => type == MsgType.ack || type == MsgType.nak
  | _, _ => false

/-- A processed packet with another transaction id, or of a type that is not expected, leaves the state,
the retry timer and the result alone. -/
def LeavesAlone (ip : Nat) (s : RunState) (e : RunEvent) : Prop :=
  ∀ m ∈ s.processed e, ∀ info ∈ m.info,
    m.xid ≠ s.client.xid ∨ expected s.client.state info.type = false →
    ∀ t, s.step ip e = some t → t.client.state = s.client.state ∧
      t.client.retryArmed = s.client.retryArmed ∧ t.client.result = s.client.result

/-- The client waits for an answer. The timeout of the run moves it to another state. -/
def Waiting (s : RunState) : Prop := s.client.state = .discover ∨ s.client.state = .request

/-- A client that waits for an answer will send again. -/
def RetryScheduled (s : RunState) : Prop := Waiting s → s.client.retryArmed = true

/-- No packet is processed while the client waits for an answer. -/
def NothingProcessed (s : RunState) (e : RunEvent) : Prop :=
  ∀ m ∈ s.processed e, ¬Waiting s

/-- The timer that sends again runs only before the first offer. -/
def Inv (s : RunState) : Prop := s.client.retryArmed = true → s.client.state = .discover

/-- A client that was just started meets the invariant. -/
theorem inv_run (ip random : Nat) (hasTimeout : Bool) : Inv ⟨Client.run ip random hasTimeout, []⟩ :=
  fun _ => rfl

/-- Every packet that is processed cancels the timer. -/
theorem process_retryArmed (c : Client) (info : IpInfo) (random : Nat) :
    (c.process info random).retryArmed = false := by
  rw [Client.process]
  cases c.state with
  | discover =>
    dsimp only
    split
    · rfl
    · rfl
  | request =>
    dsimp only
    split
    · rfl
    · split
      · rfl
      · rfl
  | none => rfl
  | done => rfl
  | fail => rfl

/-- A client that waits for nothing only cancels the timer. -/
theorem process_of_not_waiting {c : Client} (info : IpInfo) (random : Nat)
    (hdiscover : c.state ≠ .discover) (hrequest : c.state ≠ .request) :
    c.process info random = { c with retryArmed := false } := by
  rw [Client.process]
  split
  · exact absurd ‹_› hdiscover
  · exact absurd ‹_› hrequest
  · rfl

/-- A client that waits still waits after a packet, or is done. -/
theorem process_state (c : Client) (info : IpInfo) (random : Nat)
    (hwaiting : c.state = .discover ∨ c.state = .request) :
    (c.process info random).state = .discover ∨ (c.process info random).state = .request ∨
      c.state = .request ∧ (c.process info random).state = .done := by
  rw [Client.process]
  rcases hwaiting with hstate | hstate
  · rw [hstate]
    dsimp only
    split
    · exact .inl rfl
    · exact .inr (.inl rfl)
  · rw [hstate]
    dsimp only
    split
    · exact .inl rfl
    · split
      · exact .inr (.inl rfl)
      · exact .inr (.inr ⟨rfl, rfl⟩)

/-- A packet of a type that is not expected only cancels the timer. -/
theorem process_of_not_expected {c : Client} {info : IpInfo} (random : Nat)
    (h : expected c.state info.type = false) :
    c.process info random = { c with retryArmed := false } := by
  rw [Client.process]
  cases hstate : c.state with
  | discover =>
    rw [hstate] at h
    have hoffer : info.type ≠ MsgType.offer := fun heq => by simp [expected, heq] at h
    dsimp only
    rw [if_pos hoffer]
  | request =>
    rw [hstate] at h
    have hnak : info.type ≠ MsgType.nak := fun heq => by simp [expected, heq] at h
    have hack : info.type ≠ MsgType.ack := fun heq => by simp [expected, heq] at h
    dsimp only
    rw [if_neg hnak, if_pos hack]
  | none => rfl
  | done => rfl
  | fail => rfl

/-- A packet of an expected type moves the client to another state. -/
theorem process_of_expected {c : Client} {info : IpInfo} (random : Nat)
    (h : expected c.state info.type = true) : (c.process info random).state ≠ c.state := by
  rw [Client.process]
  cases hstate : c.state with
  | discover =>
    rw [hstate] at h
    have hoffer : info.type = MsgType.offer := by simpa [expected] using h
    dsimp only
    rw [if_neg (not_not_intro hoffer)]
    exact State.noConfusion
  | request =>
    rw [hstate] at h
    dsimp only
    by_cases hnak : info.type = MsgType.nak
    · rw [if_pos hnak]
      exact State.noConfusion
    · have hack : info.type = MsgType.ack := by simpa [expected, hnak] using h
      rw [if_neg hnak, if_neg (not_not_intro hack)]
      exact State.noConfusion
  | none =>
    rw [hstate] at h
    cases h
  | done =>
    rw [hstate] at h
    cases h
  | fail =>
    rw [hstate] at h
    cases h

section
variable {ip : Nat} {s t : RunState}

/-- An event processes a packet, or none. -/
inductive StepResult (ip : Nat) (s : RunState) (e : RunEvent) : RunState → Prop
  | processed (m : Accepted) (info : IpInfo) (random : Nat) (t : RunState)
      (hm : s.processed e = some m) (hinfo : m.info = some info)
      (hclient : t.client = s.client.process info random) : StepResult ip s e t
  | received (t : RunState) (hnone : s.processed e = none) (hclient : t.client = s.client) :
      StepResult ip s e t
  | retry (random : Nat) (t : RunState) (hnone : s.processed e = none)
      (harmed : s.client.retryArmed = true) (hclient : t.client = s.client.sendDiscover random ip) :
      StepResult ip s e t
  | timeout (t : RunState) (hnone : s.processed e = none) (hstate : t.client.state = .fail)
      (hretry : t.client.retryArmed = false) : StepResult ip s e t

/-- What an accepted packet does to the client. -/
theorem processPacket_eq {m : Accepted} {random : Nat} (h : s.processPacket m random = some t) :
    ∃ info, m.info = some info ∧ t.client = s.client.process info random := by
  obtain ⟨info, hinfo, rfl⟩ := Option.map_eq_some_iff.mp h
  exact ⟨info, hinfo, rfl⟩

/-- What one step does to the run. -/
theorem step_result {e : RunEvent} (hstep : s.step ip e = some t) : StepResult ip s e t := by
  cases e with
  | handle cpu iph p random =>
    simp only [RunState.step] at hstep
    cases haccepts : s.client.accepts iph p with
    | none =>
      rw [haccepts] at hstep
      cases hstep
      refine .received _ ?_ rfl
      simp only [RunState.processed, haccepts, ite_self]
    | some m =>
      rw [haccepts] at hstep
      dsimp only at hstep
      split at hstep
      · -- The packet is for this CPU and processed at once.
        rename_i hcpu
        obtain ⟨info, hinfo, hclient⟩ := processPacket_eq hstep
        refine .processed m info random t ?_ hinfo hclient
        simp only [RunState.processed, if_pos hcpu, haccepts]
      · -- Another CPU gets the packet, and delivers it later.
        rename_i hcpu
        cases hstep
        refine .received _ ?_ rfl
        simp only [RunState.processed, if_neg hcpu]
  | deliver i random =>
    simp only [RunState.step] at hstep
    cases hi : s.submitted[i]? with
    | none =>
      rw [hi] at hstep
      cases hstep
    | some m =>
      rw [hi] at hstep
      obtain ⟨info, hinfo, hclient⟩ := processPacket_eq hstep
      exact .processed m info random t hi hinfo hclient
  | retry random =>
    simp only [RunState.step] at hstep
    split at hstep
    · rename_i harmed
      cases hstep
      exact .retry random _ rfl harmed rfl
    · cases hstep
  | timeout =>
    simp only [RunState.step] at hstep
    split at hstep
    · cases hstep
      exact .timeout _ rfl rfl rfl
    · cases hstep

/-- Every event keeps the invariant. -/
theorem Inv.step (h : Inv s) {e : RunEvent} (hstep : s.step ip e = some t) : Inv t := by
  intro harmed
  cases step_result hstep with
  | processed m info random _ hm hinfo hclient =>
    rw [hclient, process_retryArmed] at harmed
    cases harmed
  | received _ hnone hclient =>
    rw [hclient] at harmed ⊢
    exact h harmed
  | retry random _ hnone harmed' hclient =>
    rw [hclient]
    rfl
  | timeout _ hnone hstate hretry =>
    rw [hretry] at harmed
    cases harmed

/-- As long as a retry is scheduled, an event is right exactly when it processes no packet while the
client waits. -/
theorem step_iff (h : Inv s) (hs : RetryScheduled s) {e : RunEvent} (hstep : s.step ip e = some t) :
    LeavesAlone ip s e ∧ RetryScheduled t ↔ NothingProcessed s e := by
  cases step_result hstep with
  | processed m info random _ hm hinfo hclient =>
    -- Processing a packet cancels the timer, whatever the packet says.
    have hcancelled : t.client.retryArmed = false := by
      rw [hclient, process_retryArmed]
    by_cases hwaiting : Waiting s
    · -- The client sent no request, because the timer is still there.
      have hdiscover : s.client.state = .discover := h (hs hwaiting)
      refine iff_of_false ?_ fun hnothing => hnothing m hm hwaiting
      rintro ⟨-, hscheduled⟩
      have hstate : Waiting t := by
        rw [Waiting, hclient]
        rcases process_state s.client info random hwaiting with hd | hr | ⟨hr, -⟩
        · exact .inl hd
        · exact .inr hr
        · exact nomatch hdiscover.symm.trans hr
      exact nomatch hcancelled.symm.trans (hscheduled hstate)
    · obtain ⟨hdiscover, hrequest⟩ := not_or.mp hwaiting
      have hsame := process_of_not_waiting info random hdiscover hrequest
      have hunarmed : s.client.retryArmed = false := by
        cases harmed : s.client.retryArmed with
        | false => rfl
        | true => exact absurd (h harmed) hdiscover
      rw [hsame] at hclient
      refine iff_of_true ⟨?_, ?_⟩ fun _ _ => hwaiting
      · intro _ _ _ _ _ t' ht'
        obtain rfl := Option.some.inj (hstep.symm.trans ht')
        rw [hclient, hunarmed]
        exact ⟨rfl, rfl, rfl⟩
      · intro hwaiting'
        rw [Waiting, hclient] at hwaiting'
        exact absurd hwaiting' hwaiting
  | received _ hnone hclient =>
    refine iff_of_true ⟨fun m hm => ?_, ?_⟩ fun m hm => ?_
    · exact nomatch hnone.symm.trans hm
    · rw [RetryScheduled, Waiting, hclient]
      exact hs
    · exact nomatch hnone.symm.trans hm
  | retry random _ hnone harmed hclient =>
    refine iff_of_true ⟨fun m hm => ?_, ?_⟩ fun m hm => ?_
    · exact nomatch hnone.symm.trans hm
    · rw [RetryScheduled, hclient]
      exact fun _ => harmed
    · exact nomatch hnone.symm.trans hm
  | timeout _ hnone hstate hretry =>
    refine iff_of_true ⟨fun m hm => ?_, ?_⟩ fun m hm => ?_
    · exact nomatch hnone.symm.trans hm
    · rw [RetryScheduled, Waiting, hstate]
      rintro (hd | hr)
      · cases hd
      · cases hr
    · exact nomatch hnone.symm.trans hm

/-- A packet that is processed in any state is treated right exactly when the client waits for it, or
when no retry was scheduled and its type is not expected. -/
theorem leavesAlone_iff {e : RunEvent} {m : Accepted} {info : IpInfo} (hm : s.processed e = some m)
    (hinfo : m.info = some info) (hstep : s.step ip e = some t) :
    LeavesAlone ip s e ↔
      m.xid = s.client.xid ∧ expected s.client.state info.type = true ∨
        s.client.retryArmed = false ∧ expected s.client.state info.type = false := by
  obtain ⟨random, hclient⟩ : ∃ random, t.client = s.client.process info random := by
    cases step_result hstep with
    | processed m' info' random _ hm' hinfo' hclient =>
      obtain rfl := Option.some.inj (hm.symm.trans hm')
      obtain rfl := Option.some.inj (hinfo.symm.trans hinfo')
      exact ⟨random, hclient⟩
    | received _ hnone => exact nomatch hnone.symm.trans hm
    | retry _ _ hnone => exact nomatch hnone.symm.trans hm
    | timeout _ hnone => exact nomatch hnone.symm.trans hm
  constructor
  · intro h
    by_cases hforeign : m.xid ≠ s.client.xid ∨ expected s.client.state info.type = false
    · obtain ⟨hstate, hretry, -⟩ := h m hm info hinfo hforeign t hstep
      rw [hclient] at hstate hretry
      refine .inr ⟨hretry.symm.trans (process_retryArmed _ _ _), ?_⟩
      cases hexpected : expected s.client.state info.type with
      | false => rfl
      | true => exact absurd hstate (process_of_expected random hexpected)
    · obtain ⟨hxid, hexpected⟩ := not_or.mp hforeign
      exact .inl ⟨not_not.mp hxid, (Bool.not_eq_false _).mp hexpected⟩
  · intro h m' hm' info' hinfo' hforeign t' ht'
    obtain rfl := Option.some.inj (hm.symm.trans hm')
    obtain rfl := Option.some.inj (hinfo.symm.trans hinfo')
    obtain rfl := Option.some.inj (hstep.symm.trans ht')
    rcases h with ⟨hxid, hexpected⟩ | ⟨hretry, hexpected⟩
    · rcases hforeign with hne | hnot
      · exact absurd hxid hne
      · exact nomatch hexpected.symm.trans hnot
    · rw [hclient, process_of_not_expected random hexpected, hretry]
      exact ⟨rfl, rfl, rfl⟩

end

/-! ### The runs -/

/-- In a run, a retry stays scheduled and the packets that should be ignored are ignored, exactly when
no packet is processed while the client waits for an answer. -/
theorem run_right_iff (ip random : Nat) (hasTimeout : Bool) (es : List RunEvent) :
    Always (RunState.step ip) RetryScheduled ⟨Client.run ip random hasTimeout, []⟩ es ∧
        Guarded (RunState.step ip) (LeavesAlone ip) ⟨Client.run ip random hasTimeout, []⟩ es ↔
      Guarded (RunState.step ip) NothingProcessed ⟨Client.run ip random hasTimeout, []⟩ es :=
  always_and_guarded_iff Inv (fun _ _ _ h _ hstep => h.step hstep)
    (fun _ _ _ h hs hstep => step_iff h hs hstep) (inv_run ip random hasTimeout) (fun _ => rfl) es

/-- An IP packet with an offer for the transaction 0. -/
def foreignOffer : List UInt8 :=
  List.replicate 20 0 ++ [0, 67, 0, 68, 0, 0, 0, 0] ++ List.replicate 236 0 ++
    Client.optionsMagic ++ [OptType.messageType, 1, 2, OptType.endMark]

/-- The client has the transaction 1. The offer moves it to REQUEST and cancels the retry. -/
theorem not_run_right_of_foreignOffer :
    ¬∀ (ip random : Nat) (hasTimeout : Bool) (es : List RunEvent),
      Always (RunState.step ip) RetryScheduled ⟨Client.run ip random hasTimeout, []⟩ es ∧
        Guarded (RunState.step ip) (LeavesAlone ip) ⟨Client.run ip random hasTimeout, []⟩ es := by
  intro h
  have hstep : (RunState.step 0 ⟨Client.run 0 1 true, []⟩
      (.handle 0 ⟨5, 272, 0, 0, 17, 0, 0⟩ foreignOffer 0)).map (fun t => decide
        (t.client.state = .request ∧ t.client.retryArmed = false)) = some true := by
    decide +kernel
  obtain ⟨t, ht, heq⟩ := Option.map_eq_some_iff.mp hstep
  obtain ⟨hstate, hretry⟩ := of_decide_eq_true heq
  have hscheduled := ((h 0 1 true [_]).1.2 t ht).head (.inr hstate)
  exact nomatch hretry.symm.trans hscheduled

end Netstar.Proofs.Net.Dhcp
