import Mathlib.Logic.Function.Basic
import Mathlib.Logic.Relation

/-!
# `Netstar.Lib.SlotPool`: requests that share a pool of numbered slots

A pool has slots, and a request uses one slot at a time. A slot has an age that grows whenever the
slot gives up a transmission, so a transmission is known by its slot and the age of the slot at
that time. The request is sent again after a timeout, up to a limit, and then it is given up.

The log records what happened, in order. `Inv` is the invariant of every reachable pool. Its
part `history` is what the pool is for: a request is resolved once, an answer belongs to the
latest transmission of the request that it resolves, and a request is given up after exactly
`limit` timeouts.
-/

set_option autoImplicit false

namespace Netstar.Lib.SlotPool

/-- What a slot is doing: nothing, or it serves the request `q` after `r` timeouts, and its
transmission is still to be made or has been made. -/
inductive Phase where
  | free
  | pending (q r : Nat)
  | inFlight (q r : Nat)
  deriving DecidableEq, Repr

/-- The request of a slot, with the number of its timeouts. -/
def Phase.request : Phase → Option (Nat × Nat)
  | .free => none
  | .pending q r | .inFlight q r => some (q, r)

/-- A slot, with the number of times it has been used. -/
structure Slot where
  age : Nat
  phase : Phase
  deriving DecidableEq, Repr

variable {ρ : Type}

/-- How a request ends: with an answer `response` to the transmission at position `j` of the log, or
without one. -/
inductive Ending (ρ : Type) where
  | answered (j : Nat) (response : ρ)
  | gaveUp
  deriving DecidableEq, Repr

/-- What the log notes: a record sent, a timeout, a request resolved. -/
inductive Event (ρ : Type) where
  | transmit (i age q : Nat)
  | timeout (q : Nat)
  | resolve (q : Nat) (ending : Ending ρ)
  deriving DecidableEq, Repr

/-- The request that an event is about. -/
def Event.request : Event ρ → Nat
  | .transmit _ _ q | .timeout q | .resolve q _ => q

/-- The number of timeouts of the request `q`. -/
def timeouts (q : Nat) (log : List (Event ρ)) : Nat :=
  log.countP fun
    | .timeout q' => q' == q
    | _ => false

/-- The event at position `j` is the latest transmission of the request `q`, made by slot `i` at age
`a`. -/
def Latest (log : List (Event ρ)) (j i a q : Nat) : Prop :=
  log[j]? = some (.transmit i a q) ∧
    ∀ j' i' a', j < j' → log[j']? ≠ some (.transmit i' a' q)

/-- The slots and the log. -/
structure Pool (ρ : Type) where
  slot : Nat → Slot
  log : List (Event ρ)

/-- The request `q` has no slot and no event yet. -/
def Pool.Unused (p : Pool ρ) (q : Nat) : Prop :=
  (∀ e ∈ p.log, e.request ≠ q) ∧ ∀ i r, (p.slot i).phase.request ≠ some (q, r)

/-- A step in which a slot goes on with its request. -/
inductive Progress (limit : Nat) : Pool ρ → Pool ρ → Prop
  | transmit {p : Pool ρ} {i a q r : Nat} (hpending : p.slot i = ⟨a, .pending q r⟩) :
    Progress limit p ⟨Function.update p.slot i ⟨a, .inFlight q r⟩, p.log ++ [.transmit i a q]⟩
  | answer {p : Pool ρ} {i a q r j q' : Nat} (response : ρ)
      (hflight : p.slot i = ⟨a, .inFlight q r⟩) (hj : p.log[j]? = some (.transmit i a q')) :
    Progress limit p
      ⟨Function.update p.slot i ⟨a + 1, .free⟩, p.log ++ [.resolve q (.answered j response)]⟩
  | timeout {p : Pool ρ} {i a q r : Nat} (hflight : p.slot i = ⟨a, .inFlight q r⟩) :
    Progress limit p
      ⟨Function.update p.slot i ⟨a + 1, .pending q (r + 1)⟩, p.log ++ [.timeout q]⟩
  | giveUp {p : Pool ρ} {i a q : Nat} (hpending : p.slot i = ⟨a, .pending q limit⟩) :
    Progress limit p ⟨Function.update p.slot i ⟨a, .free⟩, p.log ++ [.resolve q .gaveUp]⟩

/-- One step of a pool. -/
inductive Step (limit : Nat) : Pool ρ → Pool ρ → Prop
  | start {p : Pool ρ} {i a q : Nat} (hfree : p.slot i = ⟨a, .free⟩) (hq : p.Unused q) :
    Step limit p ⟨Function.update p.slot i ⟨a, .pending q 0⟩, p.log⟩
  | progress {p p' : Pool ρ} (h : Progress limit p p') : Step limit p p'

/-- What holds when the request `q` ends, in terms of the log before. -/
def EndsWell (limit : Nat) (before : List (Event ρ)) (q : Nat) : Ending ρ → Prop
  | .answered j _ => ∃ i a, Latest before j i a q
  | .gaveUp => timeouts q before = limit

/-- The invariant of a pool. -/
structure Inv (limit : Nat) (p : Pool ρ) : Prop where
  /-- A slot was younger at its transmissions. If it still has the same age, then it is in flight
  and this is the latest transmission of its request. -/
  aged : ∀ j i a q, p.log[j]? = some (.transmit i a q) →
    a < (p.slot i).age ∨
      ∃ r, p.slot i = ⟨a, .inFlight q r⟩ ∧ Latest p.log j i a q
  sole : ∀ i i' q r r', (p.slot i).phase.request = some (q, r) →
    (p.slot i').phase.request = some (q, r') → i = i'
  unresolved : ∀ i q r, (p.slot i).phase.request = some (q, r) → ∀ ending, .resolve q ending ∉ p.log
  counted : ∀ i q r, (p.slot i).phase.request = some (q, r) → timeouts q p.log = r
  /-- Every request that ended did so once and well. -/
  history : ∀ before q ending after, p.log = before ++ .resolve q ending :: after →
    (∀ ending', .resolve q ending' ∉ before) ∧ EndsWell limit before q ending

/-! ### Logs that grow by one event -/

/-- The entries of a log with one event more. -/
theorem getElem?_append_singleton {log : List (Event ρ)} {e x : Event ρ} {j : Nat} :
    (log ++ [e])[j]? = some x ↔ log[j]? = some x ∨ j = log.length ∧ e = x := by
  rcases Nat.lt_trichotomy j log.length with hlt | rfl | hgt
  · rw [List.getElem?_append_left hlt]
    simp [Nat.ne_of_lt hlt]
  · simp
  · rw [List.getElem?_eq_none (by simpa using Nat.succ_le_of_lt hgt),
      List.getElem?_eq_none (Nat.le_of_lt hgt)]
    simp [Nat.ne_of_gt hgt]

/-- An event that sends nothing of the query leaves its latest transmission. -/
theorem Latest.append {log : List (Event ρ)} {j i a q : Nat} (h : Latest log j i a q) {e : Event ρ}
    (he : ∀ i' a', e ≠ .transmit i' a' q) : Latest (log ++ [e]) j i a q := by
  refine ⟨getElem?_append_singleton.mpr (.inl h.1), fun j' i' a' hlt hj' => ?_⟩
  rcases getElem?_append_singleton.mp hj' with hj' | ⟨-, heq⟩
  · exact h.2 j' i' a' hlt hj'
  · exact he i' a' heq

/-- A record just sent is the latest one. -/
theorem latest_append_transmit (log : List (Event ρ)) (i a q : Nat) :
    Latest (log ++ [.transmit i a q]) log.length i a q := by
  refine ⟨by simp, fun j' i' a' hlt hj' => ?_⟩
  rw [List.getElem?_eq_none (by simpa using Nat.succ_le_of_lt hlt)] at hj'
  cases hj'

/-- One event more adds its own timeouts. -/
theorem timeouts_append (q : Nat) (log : List (Event ρ)) (e : Event ρ) :
    timeouts q (log ++ [e]) = timeouts q log + timeouts q [e] :=
  List.countP_append

/-- A resolved query in a log with one event more was resolved before, or by this event. -/
theorem append_eq_resolve {log before after : List (Event ρ)} {e : Event ρ} {q : Nat}
    {ending : Ending ρ} (h : log ++ [e] = before ++ .resolve q ending :: after) :
    (log = before ∧ e = .resolve q ending) ∨
      ∃ after', log = before ++ .resolve q ending :: after' := by
  rcases List.eq_nil_or_concat after with rfl | ⟨after', e', rfl⟩
  · obtain ⟨hlog, he⟩ := List.append_inj' h rfl
    exact .inl ⟨hlog, List.singleton_inj.mp he⟩
  · have hsplit : log ++ [e] = (before ++ .resolve q ending :: after') ++ [e'] := by simpa using h
    exact .inr ⟨after', (List.append_inj' hsplit rfl).1⟩

/-! ### The invariant is kept -/

section Advance

variable {limit : Nat} {p : Pool ρ} {i : Nat} {s' : Slot} {e : Event ρ} {q₀ r₀ : Nat}

/-- The slot `i` with the request `q₀` changes, and an event of `q₀` is added to the log. -/
theorem Inv.advance (hp : Inv limit p) (hq₀ : (p.slot i).phase.request = some (q₀, r₀))
    (he : e.request = q₀)
    (hage : (p.slot i).age < s'.age ∨
      (p.slot i).age = s'.age ∧ ∀ q r, (p.slot i).phase ≠ .inFlight q r)
    (hreq : ∀ q r, s'.phase.request = some (q, r) →
      q = q₀ ∧ r₀ + timeouts q₀ [e] = r ∧ ∀ ending, e ≠ .resolve q₀ ending)
    (hsent : ∀ k a q, e = .transmit k a q → k = i ∧ ∃ r, s' = ⟨a, .inFlight q r⟩)
    (hends : ∀ ending, e = .resolve q₀ ending → EndsWell limit p.log q₀ ending) :
    Inv limit ⟨Function.update p.slot i s', p.log ++ [e]⟩ := by
  -- The other slots have other requests, to which the event means nothing.
  have hother {k q r : Nat} (hki : k ≠ i) (hk : (p.slot k).phase.request = some (q, r)) :
      e.request ≠ q := by
    rintro rfl
    rw [he] at hk
    exact hki (hp.sole k i q₀ r r₀ hk hq₀)
  have hcases {k q r : Nat} (hk : (Function.update p.slot i s' k).phase.request = some (q, r)) :
      k = i ∧ s'.phase.request = some (q, r) ∨
        k ≠ i ∧ (p.slot k).phase.request = some (q, r) := by
    by_cases hki : k = i
    · subst hki
      rw [Function.update_self] at hk
      exact .inl ⟨rfl, hk⟩
    · rw [Function.update_of_ne hki] at hk
      exact .inr ⟨hki, hk⟩
  constructor
  case aged =>
    intro j k a q hj
    dsimp only at hj ⊢
    by_cases hki : k = i
    · subst hki
      rw [Function.update_self]
      rcases getElem?_append_singleton.mp hj with hj | ⟨rfl, rfl⟩
      · left
        rcases hage with hlt | ⟨heq, hphase⟩
        · rcases hp.aged j k a q hj with hold | ⟨r, hslot, -⟩
          · exact Nat.lt_trans hold hlt
          · rw [hslot] at hlt
            exact hlt
        · rcases hp.aged j k a q hj with hold | ⟨r, hslot, -⟩
          · rw [← heq]
            exact hold
          · rw [hslot] at hphase
            exact (hphase q r rfl).elim
      · obtain ⟨-, r, rfl⟩ := hsent k a q rfl
        exact .inr ⟨r, rfl, latest_append_transmit ..⟩
    · rw [Function.update_of_ne hki]
      rcases getElem?_append_singleton.mp hj with hj | ⟨-, rfl⟩
      · rcases hp.aged j k a q hj with hold | ⟨r, hslot, hlatest⟩
        · exact .inl hold
        · have hne : e.request ≠ q := hother hki (by rw [hslot]; rfl)
          refine .inr ⟨r, hslot, hlatest.append (fun i' a' heq => hne ?_)⟩
          rw [heq]
          rfl
      · exact (hki (hsent k a q rfl).1).elim
  case sole =>
    have hback {k q r : Nat}
        (hk : (Function.update p.slot i s' k).phase.request = some (q, r)) :
        ∃ r', (p.slot k).phase.request = some (q, r') := by
      rcases hcases hk with ⟨rfl, hs'⟩ | ⟨-, hold⟩
      · exact ⟨r₀, (hreq q r hs').1 ▸ hq₀⟩
      · exact ⟨r, hold⟩
    intro k k' q r r' hk hk'
    obtain ⟨r₁, h₁⟩ := hback hk
    obtain ⟨r₂, h₂⟩ := hback hk'
    exact hp.sole k k' q r₁ r₂ h₁ h₂
  case unresolved =>
    intro k q r hk ending hmem
    rw [List.mem_append, List.mem_singleton] at hmem
    rcases hcases hk with ⟨rfl, hs'⟩ | ⟨hki, hold⟩
    · obtain ⟨rfl, -, hne⟩ := hreq q r hs'
      rcases hmem with hmem | heq
      · exact hp.unresolved k q r₀ hq₀ ending hmem
      · exact hne ending heq.symm
    · rcases hmem with hmem | rfl
      · exact hp.unresolved k q r hold ending hmem
      · exact hother hki hold rfl
  case counted =>
    intro k q r hk
    rw [timeouts_append]
    rcases hcases hk with ⟨rfl, hs'⟩ | ⟨hki, hold⟩
    · obtain ⟨rfl, hr, -⟩ := hreq q r hs'
      rw [hp.counted k q r₀ hq₀]
      exact hr
    · have hne := hother hki hold
      rw [hp.counted k q r hold]
      cases e with
      | timeout q' =>
        have hne' : q' ≠ q := hne
        simpa [timeouts] using hne'
      | transmit | resolve => rfl
  case history =>
    intro before q ending after hlog
    rcases append_eq_resolve hlog with ⟨rfl, rfl⟩ | ⟨after', hold⟩
    · have hq : q = q₀ := he
      subst hq
      exact ⟨hp.unresolved i q r₀ hq₀, hends ending rfl⟩
    · exact hp.history before q ending after' hold

end Advance

/-- A request that was not used yet gets a free slot. -/
theorem Inv.start {limit : Nat} {p : Pool ρ} (hp : Inv limit p) {i a q₀ : Nat}
    (hfree : p.slot i = ⟨a, .free⟩) (hq₀ : p.Unused q₀) :
    Inv limit ⟨Function.update p.slot i ⟨a, .pending q₀ 0⟩, p.log⟩ := by
  -- A slot with a request has the new one, or it is another slot with another request.
  have hcases {k q r : Nat}
      (hk : (Function.update p.slot i ⟨a, .pending q₀ 0⟩ k).phase.request = some (q, r)) :
      k = i ∧ q = q₀ ∧ r = 0 ∨ k ≠ i ∧ q ≠ q₀ ∧ (p.slot k).phase.request = some (q, r) := by
    by_cases hki : k = i
    · subst hki
      rw [Function.update_self] at hk
      cases hk
      exact .inl ⟨rfl, rfl, rfl⟩
    · rw [Function.update_of_ne hki] at hk
      refine .inr ⟨hki, ?_, hk⟩
      rintro rfl
      exact hq₀.2 k r hk
  constructor
  case aged =>
    intro j k a' q hj
    dsimp only
    by_cases hki : k = i
    · subst hki
      rw [Function.update_self]
      rcases hp.aged j k a' q hj with hold | ⟨r, hslot, -⟩
      · rw [hfree] at hold
        exact .inl hold
      · rw [hfree] at hslot
        cases hslot
    · rw [Function.update_of_ne hki]
      exact hp.aged j k a' q hj
  case sole =>
    intro k k' q r r' hk hk'
    rcases hcases hk with ⟨rfl, rfl, -⟩ | ⟨-, hne, hold⟩
    · rcases hcases hk' with ⟨rfl, -, -⟩ | ⟨-, hne', -⟩
      · rfl
      · exact (hne' rfl).elim
    · rcases hcases hk' with ⟨-, rfl, -⟩ | ⟨-, -, hold'⟩
      · exact (hne rfl).elim
      · exact hp.sole k k' q r r' hold hold'
  case unresolved =>
    intro k q r hk ending hmem
    rcases hcases hk with ⟨-, rfl, -⟩ | ⟨-, -, hold⟩
    · exact hq₀.1 _ hmem rfl
    · exact hp.unresolved k q r hold ending hmem
  case counted =>
    intro k q r hk
    rcases hcases hk with ⟨-, rfl, rfl⟩ | ⟨-, -, hold⟩
    · refine List.countP_eq_zero.mpr (fun e he htimeout => hq₀.1 e he ?_)
      cases e with
      | timeout q' => exact beq_iff_eq.mp htimeout
      | transmit | resolve => cases htimeout
    · exact hp.counted k q r hold
  case history => exact hp.history

/-- Progress keeps the invariant. -/
theorem Inv.progress {limit : Nat} {p p' : Pool ρ} (hp : Inv limit p) (h : Progress limit p p') :
    Inv limit p' := by
  cases h with
  | @transmit i a q r hpending =>
    have hrequest : (p.slot i).phase.request = some (q, r) := by
      rw [hpending]
      rfl
    refine hp.advance hrequest rfl ?_ ?_ ?_ nofun
    · rw [hpending]
      exact .inr ⟨rfl, nofun⟩
    · rintro q' r' ⟨⟩
      exact ⟨rfl, rfl, nofun⟩
    · rintro k a' q' ⟨⟩
      exact ⟨rfl, r, rfl⟩
  | @answer i a q r j q' response hflight hj =>
    have hrequest : (p.slot i).phase.request = some (q, r) := by
      rw [hflight]
      rfl
    refine hp.advance hrequest rfl ?_ nofun nofun ?_
    · rw [hflight]
      exact .inl (Nat.lt_succ_self a)
    · rintro ending ⟨⟩
      -- An answer of an older age would meet the slot in its own age.
      rcases hp.aged j i a q' hj with hold | ⟨r', hslot, hlatest⟩
      · rw [hflight] at hold
        exact (Nat.lt_irrefl a hold).elim
      · rw [hflight] at hslot
        cases hslot
        exact ⟨i, a, hlatest⟩
  | @timeout i a q r hflight =>
    have hrequest : (p.slot i).phase.request = some (q, r) := by
      rw [hflight]
      rfl
    refine hp.advance hrequest rfl ?_ ?_ nofun nofun
    · rw [hflight]
      exact .inl (Nat.lt_succ_self a)
    · rintro q' r' ⟨⟩
      exact ⟨rfl, by simp [timeouts], nofun⟩
  | @giveUp i a q hpending =>
    have hrequest : (p.slot i).phase.request = some (q, limit) := by
      rw [hpending]
      rfl
    refine hp.advance hrequest rfl ?_ nofun nofun ?_
    · rw [hpending]
      exact .inr ⟨rfl, nofun⟩
    · rintro ending ⟨⟩
      exact hp.counted i q limit hrequest

/-- The pool before the first request. -/
def Pool.create : Pool ρ := ⟨fun _ => ⟨0, .free⟩, []⟩

/-- A new pool meets the invariant. -/
theorem inv_create (limit : Nat) : Inv limit (Pool.create : Pool ρ) where
  aged := nofun
  sole := nofun
  unresolved := nofun
  counted := nofun
  history := by
    intro before q ending after hlog
    simp [Pool.create] at hlog

/-- The invariant holds in every pool that steps can reach. -/
theorem inv_of_reachable {limit : Nat} {p : Pool ρ}
    (h : Relation.ReflTransGen (Step limit) .create p) : Inv limit p := by
  induction h with
  | refl => exact inv_create limit
  | tail _ hstep ih =>
    cases hstep with
    | start hfree hq => exact ih.start hfree hq
    | progress h => exact ih.progress h

/-! ### Requests that were not used yet -/

/-- Progress only concerns requests that have a slot. -/
theorem Pool.Unused.progress {limit : Nat} {p p' : Pool ρ} {q : Nat} (hq : p.Unused q)
    (h : Progress limit p p') : p'.Unused q := by
  -- Every kind of progress moves one slot and logs one event, both of the same request.
  have hupdate {i q₀ r₀ : Nat} {s' : Slot} {e : Event ρ}
      (hq₀ : (p.slot i).phase.request = some (q₀, r₀)) (he : e.request = q₀)
      (hs' : ∀ q' r', s'.phase.request = some (q', r') → q' = q₀) :
      Pool.Unused ⟨Function.update p.slot i s', p.log ++ [e]⟩ q := by
    have hne : q₀ ≠ q := by
      rintro rfl
      exact hq.2 i r₀ hq₀
    constructor
    · intro e' he'
      rw [List.mem_append, List.mem_singleton] at he'
      rcases he' with he' | rfl
      · exact hq.1 e' he'
      · rw [he]
        exact hne
    · intro k r hk
      dsimp only at hk
      by_cases hki : k = i
      · subst hki
        rw [Function.update_self] at hk
        exact hne (hs' q r hk).symm
      · rw [Function.update_of_ne hki] at hk
        exact hq.2 k r hk
  cases h with
  | @transmit i a q₀ r hpending =>
    have hrequest : (p.slot i).phase.request = some (q₀, r) := by rw [hpending]; rfl
    refine hupdate hrequest rfl ?_
    rintro q' r' ⟨⟩
    rfl
  | @timeout i a q₀ r hflight =>
    have hrequest : (p.slot i).phase.request = some (q₀, r) := by rw [hflight]; rfl
    refine hupdate hrequest rfl ?_
    rintro q' r' ⟨⟩
    rfl
  | @answer i a q₀ r j q' response hflight hj =>
    have hrequest : (p.slot i).phase.request = some (q₀, r) := by rw [hflight]; rfl
    exact hupdate hrequest rfl nofun
  | @giveUp i a q₀ hpending =>
    have hrequest : (p.slot i).phase.request = some (q₀, limit) := by rw [hpending]; rfl
    exact hupdate hrequest rfl nofun

/-- Starting one query leaves the numbers of others unused. -/
theorem Pool.Unused.start {p : Pool ρ} {i a q q₀ : Nat} (hq : p.Unused q) (hne : q₀ ≠ q) :
    Pool.Unused ⟨Function.update p.slot i ⟨a, .pending q₀ 0⟩, p.log⟩ q := by
  refine ⟨hq.1, fun k r hk => ?_⟩
  dsimp only at hk
  by_cases hki : k = i
  · subst hki
    rw [Function.update_self] at hk
    cases hk
    exact hne rfl
  · rw [Function.update_of_ne hki] at hk
    exact hq.2 k r hk

/-! ### Several transmissions at once -/

/-- A slot after its transmission. -/
def Slot.sent (s : Slot) : Slot :=
  match s.phase with
  | .pending q r => ⟨s.age, .inFlight q r⟩
  | _ => s

/-- The transmission of slot `i`. -/
def Pool.transmission (p : Pool ρ) (i : Nat) : Event ρ :=
  .transmit i (p.slot i).age ((p.slot i).phase.request.elim 0 Prod.fst)

/-- The pool after these slots made their transmissions. -/
def Pool.transmitAll (p : Pool ρ) (is : List Nat) : Pool ρ :=
  ⟨fun i => if i ∈ is then (p.slot i).sent else p.slot i, p.log ++ is.map p.transmission⟩

/-- Sending the records of pending slots is progress. -/
theorem progress_transmitAll (limit : Nat) {is : List Nat} (p : Pool ρ) (hnodup : is.Nodup)
    (hpending : ∀ i ∈ is, ∃ a q r, p.slot i = ⟨a, .pending q r⟩) :
    Relation.ReflTransGen (Progress limit) p (p.transmitAll is) := by
  induction is generalizing p with
  | nil =>
    have hsame : p.transmitAll [] = p := by simp [Pool.transmitAll]
    rw [hsame]
  | cons i is ih =>
    obtain ⟨hnew, hnodup⟩ := List.nodup_cons.mp hnodup
    obtain ⟨a, q, r, hslot⟩ := hpending i (by simp)
    have hold : ∀ k ∈ is, k ≠ i := by
      rintro k hk rfl
      exact hnew hk
    have hrest := ih ⟨Function.update p.slot i ⟨a, .inFlight q r⟩, p.log ++ [.transmit i a q]⟩
      hnodup (fun k hk => by
        dsimp only
        rw [Function.update_of_ne (hold k hk)]
        exact hpending k (by simp [hk]))
    -- The records of the others do not depend on slot `i`, since no slot occurs twice.
    have hnext : Pool.transmitAll
        ⟨Function.update p.slot i ⟨a, .inFlight q r⟩, p.log ++ [.transmit i a q]⟩ is =
          p.transmitAll (i :: is) := by
      rw [Pool.transmitAll, Pool.transmitAll, Pool.mk.injEq]
      constructor
      · funext k
        by_cases hk : k = i
        · subst hk
          simp [hnew, hslot, Slot.sent]
        · simp [hk]
      · have hsame : is.map (Pool.transmission
            ⟨Function.update p.slot i ⟨a, .inFlight q r⟩, p.log ++ [.transmit i a q]⟩) =
              is.map p.transmission := by
          refine List.map_congr_left (fun k hk => ?_)
          simp [Pool.transmission, hold k hk]
        rw [hsame]
        simp [Pool.transmission, hslot, Phase.request]
    rw [hnext] at hrest
    exact .head (.transmit hslot) hrest

end Netstar.Lib.SlotPool
