import Netstar.Lib.Run
import Netstar.Spec.Rpc.Client

/-!
# `Netstar.Spec.Rpc.Prompt`: when the caller is told

The caller has the future of `when_all`, so it waits for the promise of `send` and for that of the
reply. A timeout arms one timer for each of them, with one deadline: the reactor runs both without
anything in between, in an order that it chooses.

`Watched` is a connection with the options of its calls, which the connection does not keep.
-/

set_option autoImplicit false

namespace Netstar.Spec.Rpc

open Netstar.Lib

/-- What `send_helper` gets besides the arguments: a timeout or not, and a cancellable or not. -/
structure Options where
  timeout : Bool
  cancel : Bool
  deriving DecidableEq, Repr

/-- A `client`, and the options of its calls in their order. -/
structure Watched (V : Type) where
  client : Client V
  options : List Options

/-- What can happen: an event that is not a timer, or the deadline of a call. `sendFirst` says that the
timer of the queue entry runs before that of the handler. -/
inductive Moment (V : Type) where
  | event (e : Client.Event V)
  | deadline (n : Nat) (sendFirst : Bool)

namespace Watched

variable {V : Type}

/-- The constructor of `client`. -/
def create : Watched V := ⟨Client.create, []⟩

/-- The options of a new call. -/
def newOptions : Client.Event V → List Options
  | .call _ _ timeout cancel => [⟨timeout.isSome, cancel⟩]
  | _ => []

/-- The armed timer of the queue entry of a call. -/
def sendTimers (s : Client V) (n : Nat) : List (Client.Event V) :=
  if s.outgoingQueue.any (fun e => e.call == n && e.timer) then [.sendTimer n] else []

/-- The armed timer of the handler of a call. -/
def waitTimers (s : Client V) (n : Nat) : List (Client.Event V) :=
  (s.outstanding.filter (fun h => h.call == n && h.timer)).map fun h => .waitTimer h.id

/-- `complete_timers`, for the timers of one call. `none` if none of them is armed. -/
def expire (s : Client V) (n : Nat) (sendFirst : Bool) : Option (Client V) :=
  let timers :=
    if sendFirst then sendTimers s n ++ waitTimers s n else waitTimers s n ++ sendTimers s n
  if timers.isEmpty then none else run Client.step s timers

/-- One moment. `none` if it cannot happen. -/
def step (s : Watched V) : Moment V → Option (Watched V)
  | .event (.sendTimer _) => none
  | .event (.waitTimer _) => none
  | .event e => (s.client.step e).map fun c => ⟨c, s.options ++ newOptions e⟩
  | .deadline n sendFirst => (expire s.client n sendFirst).map fun c => ⟨c, s.options⟩

/-- The future of a call is resolved: both promises are set, or the call failed at once. A call that
does not wait has no reply promise. -/
def Resolved (s : Client V) (n : Nat) : Prop :=
  ∃ c, s.calls[n]? = some c ∧
    (c.id.isSome = true → n ∈ s.sends ∧ (c.wait = true → n ∈ s.replies.map Prod.fst))

/-- A call that was made with a cancellable. -/
def HasCancellable (s : Watched V) (n : Nat) : Prop := ∃ o, s.options[n]? = some o ∧ o.cancel = true

/-- Timers and `cancel()` resolve the future of their call. -/
def Prompt (s : Watched V) : Moment V → Prop
  | .event (.cancel n) => s.HasCancellable n → Resolved (s.client.cancel n) n
  | .event _ => True
  | .deadline n sendFirst => ∀ c, expire s.client n sendFirst = some c → Resolved c n

/-- The send loop is writing the frame of a call. -/
def BeingWritten (s : Client V) (n : Nat) : Prop := ∃ d, s.sendLoop = .writing d ∧ d.call = n

/-- A call was answered by an error reply that cannot be unmarshalled. -/
def Lost (s : Client V) (n : Nat) : Prop :=
  ∃ id payload, (n, id, payload) ∈ s.answered ∧ id < 0 ∧ unmarshalException payload = none

/-- The frame of the call is not being written, and its reply was not lost. -/
def Free (s : Watched V) : Moment V → Prop
  | .event (.cancel n) => s.HasCancellable n → ¬ BeingWritten s.client n ∧ ¬ Lost s.client n
  | .event _ => True
  | .deadline n _ => ¬ BeingWritten s.client n ∧ ¬ Lost s.client n

end Watched

end Netstar.Spec.Rpc
