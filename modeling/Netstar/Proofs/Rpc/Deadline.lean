import Netstar.Proofs.Rpc.Frame
import Netstar.Spec.Rpc.Deadline

/-!
# `Netstar.Proofs.Rpc.Deadline`: when the server sees the deadline of a call

The milliseconds that are left are a signed difference, which is written as an unsigned number and
read as a signed one again, so a call that has just expired arrives with a deadline in the past. Only
a difference of zero is lost: it says that there is no deadline, and the request may then run for
ever. `frames_arrive` is the theorem that the value arrives as it was written.
-/

set_option autoImplicit false

namespace Netstar.Proofs.Rpc.Deadline

open Netstar.Spec.Rpc
open Netstar.Spec.Rpc.Deadline

variable {T : Type}

/-- A tick of the clock is not negative. -/
theorem tick_nonneg (t : Tick) : 0 ≤ t.ms.toInt := Int64.le_iff_toInt_le.mp t.nonneg

/-- Two times of one clock are less than its range apart. -/
theorem toInt_left {t : TimePoint} (take : Tick) (ht : 0 ≤ t.toInt) :
    (t - take.ms).toInt = t.toInt - take.ms.toInt := by
  have htake := tick_nonneg take
  have hlt := t.toInt_lt
  have hlt' := take.ms.toInt_lt
  rw [Int64.toInt_sub]
  exact Int.bmod_eq_of_le (by omega) (by omega)

/-- A sum that fits 64 bits does not wrap. -/
theorem toInt_add_of_fits {a b : Int64} (hlt : a.toInt + b.toInt < 2 ^ 63)
    (hle : -2 ^ 63 ≤ a.toInt + b.toInt) : (a + b).toInt = a.toInt + b.toInt := by
  rw [Int64.toInt_add]
  exact Int.bmod_eq_of_le (by omega) (by omega)

/-- A queued call has a timeout after the time of the call, so its timer does not look unarmed. -/
theorem send_some {t expiry : TimePoint} {call : Tick} (h : send (some t) call = some expiry) :
    expiry = t ∧ call.ms.toInt < t.toInt := by
  rw [send] at h
  split at h
  · cases h
  · rename_i hlt
    rw [Int64.le_iff_toInt_le] at hlt
    exact ⟨(Option.some.inj h).symm, by omega⟩

/-- The field that is written for a call with a timeout. -/
theorem timeLeftMs_some {r : Request T} {t : TimePoint} {take : Tick} (ht : t ≠ 0)
    (hleft : r.timeLeft = timeLeft t take) : timeLeftMs r = (t - take.ms).toUInt64 := by
  rw [timeLeftMs, hleft, timeLeft, if_pos ht]

/-- The unsigned difference is zero exactly when the times are equal. -/
theorem sub_eq_zero {t s : Int64} : (t - s).toUInt64 = 0 ↔ t = s := by
  constructor
  · intro h
    have hzero : t - s = 0 := congrArg UInt64.toInt64 h
    have hsum := congrArg (· + s) hzero
    simpa using hsum
  · rintro rfl
    rw [Int64.sub_self]
    rfl

/-- A call with a timeout. -/
theorem deadlineRight_some {c : Negotiated} (hc : c.timeoutNegotiated = true) {r : Request T}
    {t : TimePoint} {take : Tick} (arrive : Tick) (hpos : 0 < t.toInt)
    (hleft : r.timeLeft = timeLeft t take) :
    DeadlineRight c r (some t) take arrive ↔ Distinct (some t) take arrive := by
  have hne : t ≠ 0 := by
    rintro rfl
    exact absurd hpos (by decide)
  have hvalue : (r.value c).expire = some (t - take.ms).toUInt64 := by
    rw [Request.value, if_pos hc, timeLeftMs_some hne hleft]
  have harrive := tick_nonneg arrive
  have htake := take.ms.toInt_lt
  have hdiff := toInt_left take (Int.le_of_lt hpos)
  have hsame : (t - take.ms).toUInt64.toInt64 = t - take.ms := rfl
  rw [DeadlineRight, hvalue]
  constructor
  · rintro ⟨d, hd, hsome, -⟩ t' ht'
    obtain rfl : t = t' := Option.some.inj ht'
    rw [deadline] at hd
    split at hd
    · rename_i hzero
      rw [hsame, addTime, hdiff] at hd
      split at hd
      · rename_i hfits
        exact ⟨mt sub_eq_zero.mpr hzero, hfits.1⟩
      · cases hd
    · -- Nothing is left: no deadline arrives.
      cases hd
      exact absurd (hsome.mpr rfl) (by decide)
  · intro hdistinct
    obtain ⟨hneq, hfits⟩ := hdistinct t rfl
    have hlow : -2 ^ 63 ≤ arrive.ms.toInt + (t.toInt - take.ms.toInt) := by omega
    have hsum := toInt_add_of_fits (a := arrive.ms) (b := t - take.ms) (by rw [hdiff]; exact hfits)
      (by rw [hdiff]; exact hlow)
    refine ⟨some (arrive.ms + (t - take.ms)), ?_, by simp, ?_⟩
    · rw [deadline, if_pos (mt sub_eq_zero.mp hneq), hsame, addTime, hdiff, if_pos ⟨hfits, hlow⟩]
      rfl
    · rintro p ⟨⟩ t' ⟨⟩
      exact Int.le_of_eq (hsum.trans (by rw [hdiff]))

/-- A call without a timeout. -/
theorem deadlineRight_none {c : Negotiated} {r : Request T} {take : Tick} (arrive : Tick)
    (hleft : r.timeLeft = timeLeft 0 take) : DeadlineRight c r none take arrive := by
  have hms : timeLeftMs r = 0 := by
    rw [timeLeftMs, hleft]
    rfl
  refine ⟨none, ?_, by simp, by simp⟩
  rw [Request.value, hms]
  split <;> rfl

/-- When timeouts are negotiated, a call that is queued and taken at any later time has its deadline
at the server, and none that is too late, exactly when it is not taken in the millisecond in which it
expires and the deadline fits the clock. -/
theorem deadlineRight_iff {c : Negotiated} (hc : c.timeoutNegotiated = true)
    {timeout : Option TimePoint} {call : Tick} {expiry : TimePoint}
    (hsend : send timeout call = some expiry) (take arrive : Tick) {r : Request T}
    (hleft : r.timeLeft = timeLeft expiry take) :
    DeadlineRight c r timeout take arrive ↔ Distinct timeout take arrive := by
  cases timeout with
  | none =>
    cases hsend
    exact ⟨fun _ => (fun _ ht => nomatch ht), fun _ => deadlineRight_none arrive hleft⟩
  | some t =>
    obtain ⟨rfl, hlt⟩ := send_some hsend
    have hcall := tick_nonneg call
    exact deadlineRight_some hc arrive (by omega) hleft

/-- A request with so many milliseconds left. -/
def leftRequest (left : Option Int64) : Request UInt64 := ⟨1, 1, [], left, fun _ => 0, by decide⟩

/-- A call at 100 with a timeout at 110, whose entry is taken at 105. -/
theorem deadlineRight_iff_early :
    DeadlineRight ⟨none, true⟩ (leftRequest (some 5)) (some 110) ⟨105, by decide⟩ ⟨7, by decide⟩ ↔
      Distinct (some 110) ⟨105, by decide⟩ ⟨7, by decide⟩ :=
  deadlineRight_iff rfl (show send (some 110) ⟨100, by decide⟩ = some 110 from rfl) _ _ rfl

/-- A call at 100 with a timeout at 110, whose entry is taken at 110, before the timer has run: the
server sees no deadline. -/
theorem not_deadlineRight_expiring :
    send (some 110) ⟨100, by decide⟩ = some 110 ∧
      (leftRequest (some 0)).timeLeft = timeLeft 110 ⟨110, by decide⟩ ∧
      ¬ DeadlineRight ⟨none, true⟩ (leftRequest (some 0)) (some 110) ⟨110, by decide⟩
        ⟨7, by decide⟩ := by
  refine ⟨rfl, rfl, ?_⟩
  rintro ⟨d, hd, hsome, -⟩
  cases hd
  exact absurd (hsome.mpr rfl) (by decide)

end Netstar.Proofs.Rpc.Deadline
