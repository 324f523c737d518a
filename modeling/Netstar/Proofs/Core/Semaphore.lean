import Netstar.Lib.Tickets
import Netstar.Proofs.Core.ExpiringFifo
import Netstar.Spec.Core.Semaphore

/-!
# `Netstar.Proofs.Core.Semaphore`: units, order and answers of the semaphore

`balance` is the number of units that the users have left: what they put in, less what they took.
`_count` is the balance in 64 bits, until the semaphore is broken. The waiters that have not expired
and the answers form a ledger, where a grant is a fair answer: it goes to the first waiter. The two
loops pass the first waiters on, in order, and find a payload wherever they look.
-/

set_option autoImplicit false

namespace Netstar.Proofs.Core.Semaphore

open Netstar.Lib
open Netstar.Lib.Tickets
open Netstar.Spec.Core
open Netstar.Spec.Core.Semaphore

attribute [grind =] Session.step

/-- The units that are left. -/
def balance (s : Session) : Int := s.initial + s.signalled - s.granted - s.consumed

/-- The calls that wait. -/
def waiting (s : Session) : List Nat := s.sem.waitList.live.map (·.pr)

/-- What the users rely on. -/
structure Correct (s : Session) : Prop where
  noFault : s.fault = false
  /-- The count is the balance, in the 64 bits of the counter. -/
  unitsMod : s.sem.ex = none → s.sem.count.toInt = (balance s).bmod (2 ^ 64)
  units : s.sem.ex = none → -2 ^ 63 ≤ balance s → balance s ≤ maxCounter.toNat →
    (s.initial + s.signalled : Int) = s.sem.count.toInt + s.granted + s.consumed
  inOrder : ∀ before k after, s.log = before ++ (k, .granted) :: after →
    ∀ j < k, j ∈ before.map Prod.fst
  /-- Every call is answered once or waits, and not both. -/
  answeredOnce : (s.log.map Prod.fst ++ waiting s).Perm (List.range s.calls)
  brokenNobodyWaits : s.sem.ex ≠ none → waiting s = []

/-- The invariant of a session. -/
structure Inv (s : Session) : Prop where
  noFault : s.fault = false
  wellFormed : s.sem.waitList.WellFormed
  count : s.sem.ex = none → s.sem.count = Int64.ofInt (balance s)
  ledger : Ledger (· = .granted) s.calls s.log (waiting s)
  brokenNobodyWaits : s.sem.ex ≠ none → s.sem.waitList.live = []

/-! ### Units -/

/-- Units are added modulo `2^64`. -/
theorem addUnits_ofInt (b : Int) (nr : UInt64) :
    addUnits (Int64.ofInt b) nr = Int64.ofInt (b + nr.toNat) := by
  apply Int64.toBitVec_inj.mp
  simp [addUnits]

/-- Units are taken modulo `2^64`. -/
theorem subUnits_ofInt (b : Int) (nr : UInt64) :
    subUnits (Int64.ofInt b) nr = Int64.ofInt (b - nr.toNat) := by
  apply Int64.toBitVec_inj.mp
  simp [subUnits, Int.sub_eq_add_neg, BitVec.sub_eq_add_neg]

/-! ### Loops -/

/-- The loop of `signal` grants the first waiters. -/
theorem signalLoop_spec (s : Semaphore) (h : s.waitList.WellFormed) (b : Int)
    (hcount : s.count = Int64.ofInt b) : ∃ t xs, signalLoop s = some (t, xs) ∧
      t.waitList.WellFormed ∧ s.waitList.live = xs ++ t.waitList.live ∧ t.ex = s.ex ∧
      t.count = Int64.ofInt (b - Session.unitsOf xs) := by
  rw [signalLoop]
  by_cases hempty : s.waitList.empty = true
  · exact ⟨s, [], if_pos hempty, h, rfl, rfl, by simpa [Session.unitsOf] using hcount⟩
  · rw [if_neg hempty]
    have hfront := h.front_eq
    cases hlive : s.waitList.live with
    | nil => exact absurd (h.empty_iff.mpr hlive) hempty
    | cons x xs =>
      rw [hlive, List.head?_cons] at hfront
      obtain ⟨hpop, hpopLive⟩ := h.popFront hlive
      split
      · rename_i hnone
        rw [hfront] at hnone
        cases hnone
      · rename_i y hsome
        obtain rfl : x = y := Option.some.inj (hfront.symm.trans hsome)
        by_cases hunits : s.hasAvailableUnits x.nr = true
        · have hnext : subUnits s.count x.nr = Int64.ofInt (b - x.nr.toNat) := by
            rw [hcount, subUnits_ofInt]
          obtain ⟨t, ys, hloop, hwf, hsplit, hex, hfinal⟩ := signalLoop_spec
            { s with count := subUnits s.count x.nr, waitList := s.waitList.popFront } hpop _ hnext
          refine ⟨t, x :: ys, ?_, hwf, ?_, hex, ?_⟩
          · rw [if_pos hunits, hloop]
            rfl
          · rw [hpopLive] at hsplit
            rw [List.cons_append, ← hsplit]
          · rw [hfinal, Session.unitsOf, Session.unitsOf, List.map_cons, List.sum_cons]
            congr 1
            omega
        · refine ⟨s, [], if_neg hunits, h, by simp [hlive], rfl, ?_⟩
          simpa [Session.unitsOf] using hcount
termination_by s.waitList.list.length
decreasing_by exact ExpiringFifo.length_popFront_lt ‹_›

/-- The loop of `broken` takes every waiter. -/
theorem brokenLoop_spec (q : ExpiringFifo SemEntry) (h : q.WellFormed) :
    ∃ r, brokenLoop q = some (r, q.live) ∧ r.WellFormed ∧ r.live = [] := by
  rw [brokenLoop]
  by_cases hempty : q.empty = true
  · have hlive := h.empty_iff.mp hempty
    exact ⟨q, by rw [if_pos hempty, hlive], h, hlive⟩
  · rw [if_neg hempty]
    have hfront := h.front_eq
    cases hlive : q.live with
    | nil => exact absurd (h.empty_iff.mpr hlive) hempty
    | cons x xs =>
      rw [hlive, List.head?_cons] at hfront
      obtain ⟨hpop, hpopLive⟩ := h.popFront hlive
      split
      · rename_i hnone
        rw [hfront] at hnone
        cases hnone
      · rename_i y hsome
        obtain rfl : x = y := Option.some.inj (hfront.symm.trans hsome)
        obtain ⟨r, hloop, hwf, hnil⟩ := brokenLoop_spec q.popFront hpop
        refine ⟨r, ?_, hwf, hnil⟩
        rw [hloop, hpopLive]
        rfl
termination_by q.list.length
decreasing_by exact ExpiringFifo.length_popFront_lt ‹_›

/-! ### Steps -/

/-- A new semaphore has no waiters. -/
theorem Inv.create (count : UInt64) : Inv (Session.create count) where
  noFault := rfl
  wellFormed := ExpiringFifo.WellFormed.create
  count := by
    intro _
    have hzero := addUnits_ofInt 0 count
    rw [addUnits] at hzero
    simpa [Session.create, Semaphore.create, balance] using hzero
  ledger := Ledger.empty
  brokenNobodyWaits := fun hex => absurd rfl hex

/-- A grant at once finds nobody waiting. -/
theorem Inv.nobody_waits {s : Session} (h : Inv s) {nr : UInt64}
    (hproceed : s.sem.mayProceed nr = true) : waiting s = [] := by
  rw [mayProceed, Bool.and_eq_true] at hproceed
  rw [waiting, h.wellFormed.empty_iff.mp hproceed.2, List.map_nil]

/-- A call that gets its units at once. -/
theorem Inv.grant {s : Session} (h : Inv s) {nr : UInt64} (hproceed : s.sem.mayProceed nr = true) :
    Inv (s.answer { s.sem with count := subUnits s.sem.count nr } nr .granted) where
  noFault := h.noFault
  wellFormed := h.wellFormed
  count := by
    intro hex
    show subUnits s.sem.count nr = _
    rw [h.count hex, subUnits_ofInt]
    congr 1
    simp only [balance, Session.answer, if_true, Int.natCast_add]
    omega
  ledger := h.ledger.answerNow fun _ => h.nobody_waits hproceed
  brokenNobodyWaits := h.brokenNobodyWaits

/-- A call that is turned away at once. -/
theorem Inv.turnAway {s : Session} (h : Inv s) (nr : UInt64) {a : Answer} (ha : a ≠ .granted) :
    Inv (s.answer s.sem nr a) where
  noFault := h.noFault
  wellFormed := h.wellFormed
  count := by
    intro hex
    have hbalance : balance (s.answer s.sem nr a) = balance s := by
      simp [balance, Session.answer, ha]
    rw [hbalance]
    exact h.count hex
  ledger := h.ledger.answerNow fun hgranted => absurd hgranted ha
  brokenNobodyWaits := h.brokenNobodyWaits

/-- `wait` takes its units, or joins the waiters. -/
theorem Inv.wait {s t : Session} (h : Inv s) {expires : Bool} {nr : UInt64}
    (hstep : s.step (.wait expires nr) = some t) : Inv t := by
  simp only [Session.step, h.noFault, Bool.false_eq_true, if_false, Semaphore.wait] at hstep
  by_cases hproceed : s.sem.mayProceed nr = true
  · rw [if_pos hproceed] at hstep
    cases hstep
    exact h.grant hproceed
  · rw [if_neg hproceed] at hstep
    cases hex : s.sem.ex with
    | some ex =>
      rw [hex] at hstep
      cases hstep
      exact h.turnAway nr (fun hne => nomatch hne)
    | none =>
      rw [hex] at hstep
      cases hstep
      obtain ⟨hwf, hlive⟩ := h.wellFormed.pushBack ⟨s.calls, nr⟩ expires
      refine ⟨rfl, hwf, fun _ => h.count hex, ?_, fun hne => absurd rfl hne⟩
      have hwaiting : (s.sem.waitList.pushBack ⟨s.calls, nr⟩ expires).live.map (·.pr) =
          waiting s ++ [s.calls] := by
        rw [hlive, List.map_append]
        rfl
      show Ledger _ (s.calls + 1) s.log
        ((s.sem.waitList.pushBack ⟨s.calls, nr⟩ expires).live.map (·.pr))
      rw [hwaiting]
      exact h.ledger.arrive

/-- `try_wait` takes its units, or leaves everything as it is. -/
theorem Inv.tryWait {s t : Session} (h : Inv s) {nr : UInt64}
    (hstep : s.step (.tryWait nr) = some t) : Inv t := by
  simp only [Session.step, h.noFault, Bool.false_eq_true, if_false, Semaphore.tryWait] at hstep
  by_cases hproceed : s.sem.mayProceed nr = true
  · rw [if_pos hproceed] at hstep
    cases hstep
    exact h.grant hproceed
  · rw [if_neg hproceed] at hstep
    cases hstep
    exact h.turnAway nr (fun hne => nomatch hne)

/-- The first waiters get the same answer. -/
theorem Inv.ledger_answerAll {s : Session} (h : Inv s) {q : ExpiringFifo SemEntry}
    {xs : List SemEntry} (hlive : s.sem.waitList.live = xs ++ q.live) (a : Answer) :
    Ledger (· = .granted) s.calls (s.log ++ xs.map fun x => (x.pr, a)) (q.live.map (·.pr)) := by
  have hledger := h.ledger
  rw [waiting, hlive, List.map_append] at hledger
  have hall := hledger.answerAll a
  rwa [List.map_map] at hall

/-- `signal` adds units and wakes the waiters at the front. -/
theorem Inv.signal {s t : Session} (h : Inv s) {nr : UInt64}
    (hstep : s.step (.signal nr) = some t) : Inv t := by
  simp only [Session.step, h.noFault, Bool.false_eq_true, if_false, Semaphore.signal] at hstep
  cases hex : s.sem.ex with
  | some ex =>
    rw [hex] at hstep
    cases hstep
    have hledger := @Inv.ledger_answerAll s h s.sem.waitList [] rfl .granted
    refine ⟨rfl, h.wellFormed, fun hnone => ?_, hledger, h.brokenNobodyWaits⟩
    rw [hex] at hnone
    cases hnone
  | none =>
    rw [hex] at hstep
    have hcount : addUnits s.sem.count nr = Int64.ofInt (balance s + nr.toNat) := by
      rw [h.count hex, addUnits_ofInt]
    obtain ⟨sem, xs, hloop, hwf, hlive, hex', hfinal⟩ := signalLoop_spec
      { s.sem with count := addUnits s.sem.count nr } h.wellFormed _ hcount
    simp only [hex] at hloop hex'
    rw [hloop] at hstep
    cases hstep
    refine ⟨rfl, hwf, fun _ => ?_, h.ledger_answerAll hlive .granted,
      fun hne => absurd hex' hne⟩
    rw [hfinal]
    congr 1
    simp only [balance, Int.natCast_add]
    omega

/-- `consume_units` takes units without waiting. -/
theorem Inv.consume {s t : Session} (h : Inv s) {nr : UInt64}
    (hstep : s.step (.consume nr) = some t) : Inv t := by
  simp only [Session.step, h.noFault, Bool.false_eq_true, if_false, Semaphore.consume] at hstep
  cases hex : s.sem.ex with
  | some ex =>
    rw [hex] at hstep
    cases hstep
    refine ⟨rfl, h.wellFormed, fun hnone => ?_, h.ledger, h.brokenNobodyWaits⟩
    rw [hex] at hnone
    cases hnone
  | none =>
    rw [hex] at hstep
    cases hstep
    refine ⟨rfl, h.wellFormed, fun _ => ?_, h.ledger, fun hne => absurd rfl hne⟩
    show subUnits s.sem.count nr = _
    rw [h.count hex, subUnits_ofInt]
    congr 1
    simp only [balance, Int.natCast_add]
    omega

/-- A waiter that expires leaves the list. -/
theorem Inv.expire {s t : Session} (h : Inv s) {i : Nat} (hstep : s.step (.expire i) = some t) :
    Inv t := by
  simp only [Session.step, h.noFault, Bool.false_eq_true, if_false] at hstep
  split at hstep
  · cases hstep
  · rename_i q x hexpire
    cases hstep
    obtain ⟨hwf, earlier, later, hbefore, hafter, -⟩ := h.wellFormed.expire hexpire
    refine ⟨rfl, hwf, h.count, ?_, fun hne => ?_⟩
    · have hledger := h.ledger
      rw [waiting, hbefore, List.map_append, List.map_cons] at hledger
      show Ledger _ s.calls (s.log ++ [(x.pr, .timedOut)]) (q.live.map (·.pr))
      rw [hafter, List.map_append]
      exact hledger.answer fun hgranted => nomatch hgranted
    · have hnil := h.brokenNobodyWaits hne
      rw [hbefore] at hnil
      exact absurd hnil (by simp)

/-- `broken` fails every waiter. -/
theorem Inv.broken {s t : Session} (h : Inv s) {ex : Nat} (hstep : s.step (.broken ex) = some t) :
    Inv t := by
  obtain ⟨q, hloop, hwf, hnil⟩ := brokenLoop_spec s.sem.waitList h.wellFormed
  simp only [Session.step, h.noFault, Bool.false_eq_true, if_false, Semaphore.broken, hloop] at hstep
  cases hstep
  refine ⟨rfl, hwf, fun hnone => ?_, h.ledger_answerAll ?_ _, fun _ => hnil⟩
  · cases hnone
  · rw [hnil, List.append_nil]

/-- Every step keeps the invariant. -/
theorem Inv.step {s t : Session} {e : Event} (h : Inv s) (hstep : s.step e = some t) : Inv t := by
  cases e with
  | wait expires nr => exact h.wait hstep
  | tryWait nr => exact h.tryWait hstep
  | signal nr => exact h.signal hstep
  | consume nr => exact h.consume hstep
  | expire i => exact h.expire hstep
  | broken ex => exact h.broken hstep

/-! ### What the users see -/

/-- In a state with the invariant the semaphore is right. -/
theorem Inv.correct {s : Session} (h : Inv s) : Correct s where
  noFault := h.noFault
  unitsMod := by
    intro hex
    rw [h.count hex]
    exact Int64.toInt_ofInt
  units := by
    intro hex hlow hhigh
    have hmax : maxCounter.toNat = 2 ^ 63 - 1 := rfl
    rw [hmax] at hhigh
    rw [h.count hex, Int64.toInt_ofInt_of_le hlow (by omega), balance]
    omega
  inOrder := fun before k after hlog => h.ledger.inOrder before k .granted after hlog rfl
  answeredOnce := h.ledger.complete
  brokenNobodyWaits := by
    intro hex
    rw [waiting, h.brokenNobodyWaits hex, List.map_nil]

/-- Whatever happens to a semaphore: units are neither lost nor made, grants follow the order of
arrival, and every call has one answer or waits. -/
theorem semaphore_correct (count : UInt64) (es : List Event) :
    Always Session.step Correct (Session.create count) es := by
  have hguarded : Guarded Session.step (fun _ _ => True) (Session.create count) es :=
    guarded_of_forall (fun _ _ _ => trivial) _
  exact always_of_guarded Inv (fun _ hs => hs.correct) (fun _ _ _ hs _ hstep => hs.step hstep)
    (Inv.create count) hguarded

/-- A semaphore that starts above `max_counter` has a negative count. -/
theorem count_beyond_maxCounter :
    let s := Session.create 0x8000000000000000
    (s.initial + s.signalled : Int) ≠ s.sem.count.toInt + s.granted + s.consumed := by
  decide

/-! ### Calls for one unit -/

/-- A semaphore whose calls are all for one unit: the free units and the calls that wait. -/
structure Units (s : Semaphore) (free : Nat) (waiters : List Nat) : Prop where
  ex : s.ex = none
  wellFormed : s.waitList.WellFormed
  live : s.waitList.live = waiters.map fun pr => ⟨pr, 1⟩
  count : s.count = Int64.ofInt free
  small : free < 2 ^ 63

section Units

variable {s : Semaphore} {free : Nat} {waiters : List Nat}

/-- A new semaphore with few enough units. -/
theorem Units.create {count : UInt64} (h : count.toNat < 2 ^ 63) :
    Units (Semaphore.create count) count.toNat [] := by
  refine ⟨rfl, ExpiringFifo.WellFormed.create, rfl, ?_, h⟩
  have hzero := addUnits_ofInt 0 count
  rw [addUnits] at hzero
  simpa [Semaphore.create] using hzero

/-- A unit is available when one is free. -/
theorem Units.available (h : Units s free waiters) : s.hasAvailableUnits 1 = decide (0 < free) := by
  have hsmall := h.small
  have hbits : (Int64.ofInt free).toUInt64.toNat = free := by
    show (BitVec.ofInt 64 free).toNat = free
    rw [BitVec.toNat_ofInt]
    omega
  have hnonneg : (0 : Int64) ≤ Int64.ofInt free := by
    rw [Int64.le_iff_toInt_le, Int64.toInt_ofInt_of_le (by omega) (by omega)]
    exact Int.natCast_nonneg free
  rw [hasAvailableUnits, h.count, decide_eq_true hnonneg, Bool.true_and]
  refine decide_eq_decide.mpr ?_
  rw [UInt64.le_iff_toNat_le, hbits]
  rfl

/-- The list is empty when nobody waits. -/
theorem Units.empty (h : Units s free waiters) : s.waitList.empty = waiters.isEmpty := by
  rw [Bool.eq_iff_iff, h.wellFormed.empty_iff, h.live]
  simp

/-- A call takes a unit that is free. -/
theorem Units.wait_free (h : Units s (free + 1) []) (pr : Nat) :
    ∃ t, s.wait pr false 1 = (t, .ready) ∧ Units t free [] := by
  have hproceed : s.mayProceed 1 = true := by
    rw [mayProceed, h.available, h.empty]
    simp
  rw [Semaphore.wait, if_pos hproceed]
  refine ⟨_, rfl, h.ex, h.wellFormed, h.live, ?_, by have := h.small; omega⟩
  show subUnits s.count 1 = _
  rw [h.count, subUnits_ofInt]
  congr 1
  show ((free + 1 : Nat) : Int) - 1 = free
  omega

/-- A call waits when no unit is free. -/
theorem Units.wait_full (h : Units s 0 waiters) (pr : Nat) :
    ∃ t, s.wait pr false 1 = (t, .waits) ∧ Units t 0 (waiters ++ [pr]) := by
  have hproceed : ¬ s.mayProceed 1 = true := by
    rw [mayProceed, h.available]
    simp
  obtain ⟨hwf, hlive⟩ := h.wellFormed.pushBack ⟨pr, 1⟩ false
  rw [Semaphore.wait, if_neg hproceed, h.ex]
  refine ⟨_, rfl, rfl, hwf, ?_, h.count, h.small⟩
  rw [hlive, h.live, List.map_append]
  rfl

/-- A unit comes back and nobody waits. -/
theorem Units.signal_free (h : Units s free []) (hsmall : free + 1 < 2 ^ 63) :
    ∃ t, s.signal 1 = some (t, []) ∧ Units t (free + 1) [] := by
  have hempty : s.waitList.empty = true := h.empty
  rw [Semaphore.signal, h.ex]
  dsimp only
  rw [signalLoop, if_pos hempty]
  refine ⟨_, rfl, rfl, h.wellFormed, h.live, ?_, hsmall⟩
  show addUnits s.count 1 = _
  rw [h.count, addUnits_ofInt]
  rfl

/-- The loop of `signal` at a call that gets its units. -/
theorem signalLoop_grant {x : SemEntry} (hempty : s.waitList.empty = false)
    (hfront : s.waitList.front = some x) (hunits : s.hasAvailableUnits x.nr = true) :
    signalLoop s = (signalLoop
      { s with count := subUnits s.count x.nr, waitList := s.waitList.popFront }).map
        fun r => (r.1, x :: r.2) := by
  rw [signalLoop, if_neg (by rw [hempty]; decide)]
  split
  · rename_i hnone
    rw [hfront] at hnone
    cases hnone
  · rename_i y hsome
    obtain rfl : x = y := Option.some.inj (hfront.symm.trans hsome)
    rw [if_pos hunits]
    cases signalLoop { s with count := subUnits s.count x.nr, waitList := s.waitList.popFront } with
    | none => rfl
    | some r => rfl

/-- The loop of `signal` at a call that does not get its units. -/
theorem signalLoop_stop {x : SemEntry} (hfront : s.waitList.front = some x)
    (hunits : s.hasAvailableUnits x.nr = false) : signalLoop s = some (s, []) := by
  rw [signalLoop]
  split
  · rfl
  · split
    · rename_i hnone
      rw [hfront] at hnone
      cases hnone
    · rename_i y hsome
      obtain rfl : x = y := Option.some.inj (hfront.symm.trans hsome)
      rw [if_neg (by rw [hunits]; decide)]

/-- The first waiter, which waits for one unit. -/
theorem Units.front {w : Nat} (h : Units s free (w :: waiters)) : s.waitList.front = some ⟨w, 1⟩ := by
  rw [h.wellFormed.front_eq, h.live]
  rfl

/-- The loop of `signal` without a free unit. -/
theorem Units.signalLoop_full (h : Units s 0 waiters) : signalLoop s = some (s, []) := by
  cases waiters with
  | nil =>
    rw [signalLoop]
    exact if_pos h.empty
  | cons w ws => exact signalLoop_stop h.front h.available

/-- A unit comes back and goes to the first call that waits. -/
theorem Units.signal_waiter {w : Nat} (h : Units s 0 (w :: waiters)) :
    ∃ t, s.signal 1 = some (t, [⟨w, 1⟩]) ∧ Units t 0 waiters := by
  have hone : Units { s with count := addUnits s.count 1 } 1 (w :: waiters) :=
    ⟨h.ex, h.wellFormed, h.live, by rw [h.count, addUnits_ofInt]; rfl, by decide⟩
  obtain ⟨hpop, hpopLive⟩ := h.wellFormed.popFront h.live
  have hzero : Units ⟨subUnits (addUnits s.count 1) 1, s.ex, s.waitList.popFront⟩ 0 waiters :=
    ⟨h.ex, hpop, hpopLive, by rw [h.count, addUnits_ofInt, subUnits_ofInt]; rfl, by decide⟩
  have hsignal : s.signal 1 = signalLoop { s with count := addUnits s.count 1 } := by
    rw [Semaphore.signal]
    split
    · rename_i hex
      rw [h.ex] at hex
      cases hex
    · rfl
  refine ⟨_, ?_, hzero⟩
  rw [hsignal, signalLoop_grant hone.empty hone.front hone.available, hzero.signalLoop_full]
  rfl

end Units

end Netstar.Proofs.Core.Semaphore
