import Netstar.Spec.Rpc.Frame

/-!
# `Netstar.Spec.Rpc.Deadline`: the deadline of a call at both ends

A call with a timeout arms the timer of its queue entry. When the send loop takes the entry it writes
the milliseconds that are left, and the server adds them to the time at which the frame arrives. Zero
stands for a call without a timeout, in the timer and on the wire.

`rpc_clock_type` is `lowres_clock`, which counts milliseconds in a signed 64-bit number, from the start
of the machine. The two ends have clocks of their own. A sum that does not fit has no meaning.
-/

set_option autoImplicit false

namespace Netstar.Spec.Rpc.Deadline

/-- `rpc_clock_type::time_point`. -/
abbrev TimePoint := Int64

/-- What `rpc_clock_type::now()` returns. -/
structure Tick where
  ms : TimePoint
  nonneg : 0 ≤ ms
  deriving DecidableEq

/-- `send`: the `_expiry` of the timer in the new queue entry, which is `time_point()` without a
timeout. A call that has expired is not queued. -/
def send (timeout : Option TimePoint) (now : Tick) : Option TimePoint :=
  match timeout with
  | some t => if t ≤ now.ms then none else some t
  | none => some 0

/-- What is left when `send_loop` takes the entry. The clock counts milliseconds, so `duration_cast`
changes nothing. -/
def timeLeft (expiry : TimePoint) (now : Tick) : Option Int64 :=
  if expiry ≠ 0 then some (expiry - now.ms) else none

/-- The sum of a time point and a duration. It is undefined when it does not fit. -/
def addTime (t : TimePoint) (d : Int64) : Option TimePoint :=
  if t.toInt + d.toInt < 2 ^ 63 ∧ -2 ^ 63 ≤ t.toInt + d.toInt then some (t + d) else none

/-- `timeout` in `server::connection::process`. -/
def deadline (expire : Option UInt64) (now : Tick) : Option (Option TimePoint) :=
  match expire with
  | some e => if e ≠ 0 then (addTime now.ms e.toInt64).map some else some none
  | none => some none

/-- The server sees a deadline exactly when the call has a timeout, and it is not later than what was
left when the request was sent. -/
def DeadlineRight {T : Type} (c : Negotiated) (r : Request T) (timeout : Option TimePoint)
    (take arrive : Tick) : Prop :=
  ∃ d, deadline (r.value c).expire arrive = some d ∧ (d.isSome ↔ timeout.isSome) ∧
    ∀ p ∈ d, ∀ t ∈ timeout, p.toInt ≤ arrive.ms.toInt + (t.toInt - take.ms.toInt)

/-- The entry is not taken in the millisecond in which it expires, and the deadline fits the clock of
the server. -/
def Distinct (timeout : Option TimePoint) (take arrive : Tick) : Prop :=
  ∀ t ∈ timeout, t ≠ take.ms ∧ arrive.ms.toInt + (t.toInt - take.ms.toInt) < 2 ^ 63

end Netstar.Spec.Rpc.Deadline
