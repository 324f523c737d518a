import Netstar.Lib.Run
import Netstar.Spec.Rpc.Frame

/-!
# `Netstar.Spec.Rpc.ReplyGate`: the gate around the requests of a server

A server enters its reply gate for each request that it processes, and `server::stop` waits until all
of them have left. `with_gate` attaches the leave to the future that the gated function returns. So a
function that throws does not leave.

A request waits for memory first. Then, inside of the gate, its arguments are unmarshalled, the
handler runs, and the reply is sent. `Thrown` are the exceptions as far as the code tells them apart.
The handler, its future, the serializer and the future of `send` are the world's: events carry what
they do. `gateLog` has the enters and leaves of each request, in their order; it is not in the source.
-/

set_option autoImplicit false

namespace Netstar.Spec.Rpc.ReplyGate

/-- An exception. `other` is not derived from `std::exception`. -/
inductive Thrown where
  | gateClosed
  | semaphoreTimedOut
  | brokenSemaphore
  | outOfRange
  | runtimeError
  | stdException
  | other
  deriving DecidableEq, Repr

/-- `catch (std::exception&)` takes the exception. -/
def Thrown.isStd (e : Thrown) : Bool := !(e == .other)

/-! ### The gate -/

/-- `gate`. `stopped` is the promise of `close`, and if it has its value. -/
structure Gate where
  count : Int
  stopped : Option Bool
  deriving DecidableEq, Repr

namespace Gate

/-- `enter`. -/
def enter (g : Gate) : Except Thrown Gate :=
  if g.stopped.isSome then .error .gateClosed else .ok { g with count := g.count + 1 }

/-- `leave`. -/
def leave (g : Gate) : Gate where
  count := g.count - 1
  stopped := if g.count - 1 = 0 ∧ g.stopped.isSome then some true else g.stopped

/-- `close`. -/
def close (g : Gate) : Gate := { g with stopped := some (g.count == 0) }

end Gate

/-! ### Requests -/

/-- One argument of a verb: how the serializer reads it, and if it is an `rpc::optional`. -/
structure ArgType (V : Type) where
  optional : Bool
  read : Bytes → Except Thrown (V × Bytes)

/-- `in.read(p, size)` of `memory_input_stream`. -/
def readBytes (size : Nat) (input : Bytes) : Except Thrown (Bytes × Bytes) :=
  if input.length < size then .error .outOfRange else .ok (input.take size, input.drop size)

/-- `unmarshal_one`. -/
def unmarshalOne {V : Type} (t : ArgType V) (input : Bytes) : Except Thrown (Option V × Bytes) :=
  if t.optional && input.isEmpty then .ok (none, input)
  else do
    let (v, input) ← t.read input
    return (some v, input)

/-- `do_unmarshall`. -/
def doUnmarshall {V : Type} : List (ArgType V) → Bytes → Except Thrown (List (Option V))
  | [], _ => .ok []
  | t :: ts, input => do
    let (first, input) ← unmarshalOne t input
    let rest ← doUnmarshall ts input
    return first :: rest

/-- A registered handler. `wait` says that the client waits for the reply. -/
structure Verb (V : Type) where
  args : List (ArgType V)
  wait : Bool

/-- `resource_limits`. -/
structure ResourceLimits where
  basicRequestSize : UInt64
  bloatFactor : UInt32
  maxMemory : UInt64

/-- `estimate_request_size`. -/
def estimateRequestSize (lim : ResourceLimits) (serializedSize : UInt64) : UInt64 :=
  lim.basicRequestSize + serializedSize * lim.bloatFactor.toUInt64

/-- The parts of a server that do not change. -/
structure Config (V : Type) where
  handlers : UInt64 → Option (Verb V)
  limits : ResourceLimits

/-- A request frame. `timeout` says that it has a deadline. -/
structure Frame where
  conn : Nat
  type : UInt64
  timeout : Bool
  payload : Bytes

/-- A future of the server without its value: `some none` is ready, `some (some e)` has failed. -/
abbrev Fut := Option (Option Thrown)

/-- Where a request is. The last two are in the gate. -/
inductive Stage where
  | waiting
  | handling (ret : Fut)
  | replying
  deriving DecidableEq, Repr

/-- A request that is being processed. -/
structure Active where
  id : Nat
  frame : Frame
  stage : Stage

/-- The gate of the server, the `_error` of its connections, and its requests. -/
structure Server where
  gate : Gate
  errors : Nat → Bool
  arrived : Nat
  active : List Active
  gateLog : List (Nat × Bool)

namespace Server

/-- A server without requests. -/
def create : Server := ⟨⟨0, none⟩, fun _ => false, 0, [], []⟩

/-- The connection is over. -/
def fail (s : Server) (conn : Nat) : Server :=
  { s with errors := Function.update s.errors conn true }

/-- The request leaves the gate. -/
def leave (s : Server) (id : Nat) : Server :=
  { s with gate := s.gate.leave, gateLog := s.gateLog ++ [(id, false)] }

/-- The request goes on with the stage, or it ends. -/
def putStage (s : Server) (id : Nat) (frame : Frame) : Option Stage → Server
  | some stage => { s with active := s.active ++ [⟨id, frame, stage⟩] }
  | none => s

/-- `with_gate` for a function that throws, or returns a future. The future is ready, or the request
goes on with a stage and leaves later. -/
def withGate (s : Server) (id : Nat) (func : Except Thrown (Option Stage)) :
    Server × Except Thrown (Option Stage) :=
  match s.gate.enter with
  | .error e => (s, .error e)
  | .ok gate =>
    let s := { s with gate := gate, gateLog := s.gateLog ++ [(id, true)] }
    match func with
    | .error e => (s, .error e)
    | .ok none => (s.leave id, .ok none)
    | .ok (some stage) => (s, .ok (some stage))

end Server

/-- `respond`. The future of `send` is ready at once, or when the reply is out of the queue. -/
def respond (queued : Bool) : Option Stage := if queued then some .replying else none

/-- `reply` with what the handler returned. `marshall` is what marshalling the values throws. -/
def reply (wait connError : Bool) (ret marshall : Option Thrown) (queued : Bool) :
    Except Thrown (Option Stage) :=
  if wait then
    if connError then .ok none
    else
      match ret.or marshall with
      | some e => if e.isStd then .ok (respond queued) else .error e
      | none => .ok (respond queued)
  else
    match ret with
    -- Without a reply a standard exception of the handler is only logged.
    | some e => if e.isStd then .ok none else .error e
    | none => .ok none

/-- `apply`. `futurize::apply` turns what the handler throws into a future. -/
def apply : Except Thrown Fut → Fut
  | .error e => some (some e)
  | .ok ret => ret

/-! ### Steps -/

/-- What can happen to a server. -/
inductive Event where
  | arrive (frame : Frame) (queued : Bool)
  | granted (id : Nat) (call : Except Thrown Fut) (queued : Bool)
  | denied (id : Nat) (timedOut : Bool)
  | settled (id : Nat) (ret : Option Thrown)
  | replied (id : Nat) (marshall : Option Thrown) (queued : Bool)
  | sent (id : Nat)
  | connError (conn : Nat)
  | stop

namespace Server

variable {V : Type}

/-- The request with the number, and the server without it. -/
def take (s : Server) (id : Nat) : Option (Active × Server) :=
  (s.active.find? (·.id == id)).map fun r =>
    (r, { s with active := s.active.filter (fun r => !(r.id == id)) })

/-- The handler of the request frame, up to the wait for memory. -/
def arrive (cfg : Config V) (s : Server) (frame : Frame) (queued : Bool) : Server :=
  let id := s.arrived
  let s := { s with arrived := s.arrived + 1 }
  match cfg.handlers frame.type with
  | none => s.putStage id frame (some .waiting)
  | some verb =>
    let memoryConsumed := estimateRequestSize cfg.limits (UInt64.ofNat frame.payload.length)
    if cfg.limits.maxMemory < memoryConsumed then
      -- A request that needs more memory than there is at all is answered with an error at once.
      match s.withGate id
          (reply verb.wait (s.errors frame.conn) (some .runtimeError) none queued) with
      | (s, .error _) => s.fail frame.conn
      | (s, .ok stage) => s.putStage id frame stage
    else s.putStage id frame (some .waiting)

/-- The function that runs in the gate when the memory is there. -/
def gated (cfg : Config V) (frame : Frame) (call : Except Thrown Fut) (queued : Bool) :
    Except Thrown (Option Stage) :=
  match cfg.handlers frame.type with
  | none => .ok (respond queued)
  | some verb =>
    match doUnmarshall verb.args frame.payload with
    | .error e => .error e
    | .ok _ => .ok (some (.handling (apply call)))

/-- The continuation of `wait_for_resources`. -/
def granted (cfg : Config V) (s : Server) (id : Nat) (frame : Frame) (call : Except Thrown Fut)
    (queued : Bool) : Server :=
  match s.withGate id (gated cfg frame call queued) with
  | (s, .error .gateClosed) => s
  | (s, .error _) => s.fail frame.conn
  | (s, .ok stage) => s.putStage id frame stage

/-- A wait for memory that fails. Only a handler's wait ignores its deadline. -/
def denied (cfg : Config V) (s : Server) (frame : Frame) (timedOut : Bool) : Server :=
  if timedOut && (cfg.handlers frame.type).isSome then s else s.fail frame.conn

/-- The continuation of the handler's future. What it throws is a failed future. -/
def replied (cfg : Config V) (s : Server) (id : Nat) (frame : Frame) (ret marshall : Option Thrown)
    (queued : Bool) : Server :=
  let wait := match cfg.handlers frame.type with
    | none => true
    | some verb => verb.wait
  match reply wait (s.errors frame.conn) ret marshall queued with
  | .ok (some stage) => s.putStage id frame (some stage)
  | _ => s.leave id

/-- One event. A connection reads its next frame when the last one has its memory. -/
def step (cfg : Config V) (s : Server) : Event → Option Server
  | .arrive frame queued =>
    if s.active.any (fun r => r.frame.conn == frame.conn && r.stage == .waiting) then none
    else some (s.arrive cfg frame queued)
  | .granted id call queued =>
    match s.take id with
    | some (⟨id, frame, .waiting⟩, s) => some (s.granted cfg id frame call queued)
    | _ => none
  | .denied id timedOut =>
    match s.take id with
    | some (⟨_, frame, .waiting⟩, s) =>
      if timedOut && !frame.timeout then none else some (s.denied cfg frame timedOut)
    | _ => none
  | .settled id ret =>
    match s.take id with
    | some (⟨id, frame, .handling none⟩, s) =>
      some (s.putStage id frame (some (.handling (some ret))))
    | _ => none
  | .replied id marshall queued =>
    match s.take id with
    | some (⟨id, frame, .handling (some ret)⟩, s) =>
      some (s.replied cfg id frame ret marshall queued)
    | _ => none
  | .sent id =>
    match s.take id with
    | some (⟨id, _, .replying⟩, s) => some (s.leave id)
    | _ => none
  | .connError conn => some (s.fail conn)
  | .stop =>
    if s.gate.stopped.isSome then none
    else some { s with gate := s.gate.close, errors := fun _ => true }

/-- A request that is not being processed has left the gate as often as it entered it, at most once.
Without requests the count is zero, and the wait of `stop` is over. -/
structure GateMatched (s : Server) : Prop where
  matched : ∀ id, (∀ r ∈ s.active, r.id ≠ id) →
    s.gateLog.count (id, false) = s.gateLog.count (id, true) ∧ s.gateLog.count (id, true) ≤ 1
  quiet : s.active = [] → s.gate.count = 0 ∧ s.gate.stopped ≠ some false

/-- A request that has its memory while the gate is open has a payload with the arguments of its
verb. -/
def Unmarshals (cfg : Config V) (s : Server) : Event → Prop
  | .granted id _ _ => ∀ r ∈ s.active, r.id = id → s.gate.stopped = none →
      ∀ verb, cfg.handlers r.frame.type = some verb →
        ∃ args, doUnmarshall verb.args r.frame.payload = .ok args
  | _ => True

end Server

end Netstar.Spec.Rpc.ReplyGate
