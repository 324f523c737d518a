import Netstar.Proofs.Core.Semaphore

/-!
# `Netstar.Proofs.Core.SemaphoreFront`: the first waiter and the count

`signal` grants the first waiters as long as the count is enough for them, so when it returns, the
first waiter asks for more than there is. Nobody else compares the count with the first waiter. A wait
that starts while others wait goes to the back, and a wait that goes to the front asks for more than
the count.

The first waiter changes without `signal` when its timer fires. The next one can ask for less, and it
then waits although it could be granted. `_count` also changes without `signal` in `consume`. It gets
smaller there, unless the difference leaves the 64 bits of the counter.
-/

set_option autoImplicit false

namespace Netstar.Proofs.Core.Semaphore

open Netstar.Lib
open Netstar.Spec.Core
open Netstar.Spec.Core.Semaphore

/-- Unless the semaphore is broken, the first waiter asks for more units than there are. -/
def FrontExceeds (s : Session) : Prop :=
  s.sem.ex = none → ∀ x ∈ s.sem.waitList.live.head?, s.sem.count.toInt < x.nr.toNat

/-- The timer of the first waiter fires only when the next one asks for more units than there are, and
`consume` does not wrap the count to a number that is enough for the first waiter. -/
def FrontStays (s : Session) (e : Event) : Prop :=
  s.sem.ex = none →
    match e with
    | .expire i =>
      i = 0 → ∀ x ∈ s.sem.waitList.live.tail.head?, s.sem.count.toInt < x.nr.toNat
    | .consume nr =>
      ∀ x ∈ s.sem.waitList.live.head?, (s.sem.count.toInt - nr.toNat).bmod (2 ^ 64) < x.nr.toNat
    | _ => True

/-- `has_available_units` compares whole numbers. -/
theorem hasAvailableUnits_iff (s : Semaphore) (nr : UInt64) :
    s.hasAvailableUnits nr = true ↔ (nr.toNat : Int) ≤ s.count.toInt := by
  have hint : s.count.toInt = s.count.toBitVec.toInt := rfl
  have hnat : s.count.toUInt64.toNat = s.count.toBitVec.toNat := rfl
  have hlt := s.count.toBitVec.isLt
  have hcond := BitVec.toInt_eq_toNat_cond s.count.toBitVec
  have hzero : (0 : Int64).toInt = 0 := rfl
  rw [hasAvailableUnits, Bool.and_eq_true, decide_eq_true_iff, decide_eq_true_iff,
    Int64.le_iff_toInt_le, UInt64.le_iff_toNat_le, hnat, hzero, hint]
  split at hcond
  · omega
  · omega

/-- The count after units were taken. -/
theorem toInt_subUnits (count : Int64) (nr : UInt64) :
    (subUnits count nr).toInt = (count.toInt - nr.toNat).bmod (2 ^ 64) := by
  have hcount : count = Int64.ofInt count.toInt := (Int64.ofInt_toInt count).symm
  conv_lhs => rw [hcount, subUnits_ofInt]
  exact Int64.toInt_ofInt

/-- The loop of `signal` stops at a waiter that asks for more than there is. -/
theorem signalLoop_stops {s t : Semaphore} {xs : List SemEntry} (h : s.waitList.WellFormed)
    (hloop : signalLoop s = some (t, xs)) :
    ∀ x ∈ t.waitList.live.head?, t.count.toInt < x.nr.toNat := by
  rw [signalLoop] at hloop
  by_cases hempty : s.waitList.empty = true
  · rw [if_pos hempty] at hloop
    cases hloop
    rw [h.empty_iff.mp hempty]
    exact fun x hx => by cases hx
  · rw [if_neg hempty] at hloop
    have hfront := h.front_eq
    split at hloop
    · cases hloop
    · rename_i y hsome
      by_cases hunits : s.hasAvailableUnits y.nr = true
      · rw [if_pos hunits] at hloop
        obtain ⟨r, hrec, hret⟩ := Option.bind_eq_some_iff.mp hloop
        cases hret
        obtain ⟨ys, hlive⟩ : ∃ ys, s.waitList.live = y :: ys :=
          List.head?_eq_some_iff.mp (hfront.symm.trans hsome)
        exact signalLoop_stops (h.popFront hlive).1 hrec
      · rw [if_neg hunits] at hloop
        cases hloop
        intro x hx
        obtain rfl : y = x := Option.some.inj (hsome.symm.trans (hfront.trans hx))
        rw [hasAvailableUnits_iff] at hunits
        exact Int.not_le.mp hunits
termination_by s.waitList.list.length
decreasing_by exact ExpiringFifo.length_popFront_lt ‹_›

/-! ### One event -/

section
variable {s t : Session}

/-- A grant at once leaves an empty list. -/
theorem frontExceeds_of_proceed (h : Inv s) {nr : UInt64} (hproceed : s.sem.mayProceed nr = true)
    (hlist : t.sem.waitList = s.sem.waitList) : FrontExceeds t := by
  rw [mayProceed, Bool.and_eq_true] at hproceed
  intro _ x hx
  rw [hlist, h.wellFormed.empty_iff.mp hproceed.2] at hx
  cases hx

/-- A waiter joins at the back. -/
theorem FrontExceeds.wait (hs : FrontExceeds s) (h : Inv s) {expires : Bool} {nr : UInt64}
    (hstep : s.step (.wait expires nr) = some t) : FrontExceeds t := by
  simp only [Session.step, h.noFault, Bool.false_eq_true, if_false, Semaphore.wait] at hstep
  by_cases hproceed : s.sem.mayProceed nr = true
  · rw [if_pos hproceed] at hstep
    cases hstep
    exact frontExceeds_of_proceed h hproceed rfl
  · rw [if_neg hproceed] at hstep
    cases hex : s.sem.ex with
    | some ex =>
      rw [hex] at hstep
      cases hstep
      exact hs
    | none =>
      rw [hex] at hstep
      cases hstep
      intro _ x hx
      obtain ⟨-, hlive⟩ := h.wellFormed.pushBack ⟨s.calls, nr⟩ expires
      change x ∈ (s.sem.waitList.pushBack ⟨s.calls, nr⟩ expires).live.head? at hx
      rw [hlive] at hx
      cases hwaiters : s.sem.waitList.live with
      | nil =>
        -- The list was empty, so the units were missing.
        rw [hwaiters] at hx
        cases hx
        have hempty := h.wellFormed.empty_iff.mpr hwaiters
        rw [mayProceed, hempty, Bool.and_true, hasAvailableUnits_iff] at hproceed
        exact Int.not_le.mp hproceed
      | cons y ys =>
        rw [hwaiters] at hx
        exact hs hex x (by rw [hwaiters]; exact hx)

/-- `try_wait` takes nothing while somebody waits. -/
theorem FrontExceeds.tryWait (hs : FrontExceeds s) (h : Inv s) {nr : UInt64}
    (hstep : s.step (.tryWait nr) = some t) : FrontExceeds t := by
  simp only [Session.step, h.noFault, Bool.false_eq_true, if_false, Semaphore.tryWait] at hstep
  by_cases hproceed : s.sem.mayProceed nr = true
  · rw [if_pos hproceed] at hstep
    cases hstep
    exact frontExceeds_of_proceed h hproceed rfl
  · rw [if_neg hproceed] at hstep
    cases hstep
    exact hs

/-- `signal` wakes until the front asks for more than there is. -/
theorem FrontExceeds.signal (hs : FrontExceeds s) (h : Inv s) {nr : UInt64}
    (hstep : s.step (.signal nr) = some t) : FrontExceeds t := by
  simp only [Session.step, h.noFault, Bool.false_eq_true, if_false, Semaphore.signal] at hstep
  cases hex : s.sem.ex with
  | some ex =>
    rw [hex] at hstep
    cases hstep
    exact hs
  | none =>
    rw [hex] at hstep
    dsimp only at hstep
    split at hstep
    · rename_i hfault
      obtain ⟨sem, xs, hloop, -⟩ := signalLoop_spec
        { s.sem with ex := none, count := addUnits s.sem.count nr } h.wellFormed _
        (Int64.ofInt_toInt _).symm
      rw [hloop] at hfault
      cases hfault
    · rename_i sem xs hloop
      have hstops := signalLoop_stops (s := ⟨_, none, s.sem.waitList⟩) h.wellFormed hloop
      cases hstep
      exact fun _ => hstops

/-- `consume_units` keeps the front too large exactly when its count does not wrap. -/
theorem frontExceeds_consume_iff (h : Inv s) {nr : UInt64}
    (hstep : s.step (.consume nr) = some t) : FrontExceeds t ↔ FrontStays s (.consume nr) := by
  simp only [Session.step, h.noFault, Bool.false_eq_true, if_false, Semaphore.consume] at hstep
  cases hex : s.sem.ex with
  | some ex =>
    rw [hex] at hstep
    cases hstep
    exact iff_of_true (fun hnone => by cases hex.symm.trans hnone)
      fun hnone => by cases hex.symm.trans hnone
  | none =>
    rw [hex] at hstep
    cases hstep
    show (none = none → ∀ x ∈ _, (subUnits s.sem.count nr).toInt < _) ↔ (s.sem.ex = none → _)
    rw [hex, toInt_subUnits]

/-- The timer of another waiter than the first one leaves the first one alone. -/
theorem frontExceeds_expire_iff (hs : FrontExceeds s) (h : Inv s) {i : Nat}
    (hstep : s.step (.expire i) = some t) : FrontExceeds t ↔ FrontStays s (.expire i) := by
  simp only [Session.step, h.noFault, Bool.false_eq_true, if_false] at hstep
  split at hstep
  · cases hstep
  · rename_i q x hexpire
    cases hstep
    obtain ⟨-, earlier, later, hbefore, hafter, hfirst⟩ := h.wellFormed.expire hexpire
    show (s.sem.ex = none → ∀ y ∈ q.live.head?, _) ↔ (s.sem.ex = none → i = 0 → _)
    refine imp_congr_right fun hex => ?_
    cases earlier with
    | nil =>
      rw [hafter, hbefore, hfirst.mp rfl]
      exact ⟨fun hnext _ => hnext, fun hnext => hnext rfl⟩
    | cons y ys =>
      have hi : i ≠ 0 := fun hzero => nomatch hfirst.mpr hzero
      refine iff_of_true ?_ fun hzero => absurd hzero hi
      rw [hafter]
      intro z hz
      exact hs hex z (by rw [hbefore]; exact hz)

/-- One event keeps a first waiter that cannot be granted, exactly when it meets the condition. -/
theorem frontExceeds_step_iff (hs : FrontExceeds s) (h : Inv s) {e : Event}
    (hstep : s.step e = some t) : FrontExceeds t ↔ FrontStays s e := by
  cases e with
  | wait expires nr => exact iff_of_true (hs.wait h hstep) fun _ => trivial
  | tryWait nr => exact iff_of_true (hs.tryWait h hstep) fun _ => trivial
  | signal nr => exact iff_of_true (hs.signal h hstep) fun _ => trivial
  | consume nr => exact frontExceeds_consume_iff h hstep
  | expire i => exact frontExceeds_expire_iff hs h hstep
  | broken ex =>
    refine iff_of_true ?_ fun _ => trivial
    obtain ⟨q, hloop, -⟩ := brokenLoop_spec s.sem.waitList h.wellFormed
    simp only [Session.step, h.noFault, Bool.false_eq_true, if_false, Semaphore.broken, hloop]
      at hstep
    cases hstep
    exact fun hnone => by cases hnone

end

/-- In every state of a run the first waiter asks for more than there is, exactly when no timer and no
`consume` of the run leaves a first waiter that the count is enough for. -/
theorem frontExceeds_iff (count : UInt64) (es : List Event) :
    Always Session.step FrontExceeds (Session.create count) es ↔
      Guarded Session.step FrontStays (Session.create count) es :=
  always_iff_guarded Inv (fun _ _ _ h _ hstep => h.step hstep)
    (fun _ _ _ h hs hstep => frontExceeds_step_iff hs h hstep) (Inv.create count)
    (fun _ _ hx => nomatch hx) es

/-- One unit is there. A wait for two units expires, and the wait for one unit behind it stays. -/
theorem not_frontExceeds_of_expiry :
    ¬∀ (count : UInt64) (es : List Event),
      Always Session.step FrontExceeds (Session.create count) es := by
  intro h
  have hrun : (run Session.step (Session.create 1)
      [.wait true 2, .wait false 1, .expire 0]).map (fun t => decide
        (t.sem.ex = none ∧ t.sem.waitList.live.head? = some ⟨1, 1⟩ ∧ t.sem.count = 1))
      = some true := by
    decide
  obtain ⟨t, ht, heq⟩ := Option.map_eq_some_iff.mp hrun
  obtain ⟨hex, hfirst, hcount⟩ := of_decide_eq_true heq
  have hless := (h 1 _).last ht hex _ hfirst
  rw [hcount] at hless
  exact absurd hless (by decide)

end Netstar.Proofs.Core.Semaphore
