import Netstar.Spec.Mica.MicaClient

/-!
# `Netstar.Spec.Mica.Network`: a client and the network around it

A run of a client is a list of labels: queries, continuations of granted waiters, ticks of the
assembler timer, timeouts, and response packets. The network may lose, duplicate, reorder and delay
responses. So a packet that arrives holds any responses to requests that were sent, in any order
and any number of times. A label `receive p answers` says which sent request each record of `p`
answers, as a position in the log. A record echoes the opaque of that request, and it is not
delivered after the epoch of the descriptor has advanced by `2 ^ 16` or more.

The epoch of a descriptor has 16 bits. `ages` counts how often it advanced. `log` has what happened
so far in order, and `error` the end of the program, if the client ran into one.
-/

set_option autoImplicit false

namespace Netstar.Spec.Mica

/-- What happened, as seen from outside of the client. -/
inductive NetEvent where
  /-- A request went out, when the epoch of its descriptor had advanced `age` times. -/
  | transmit (request : SentRequest) (age : Nat)
  /-- The timer of a descriptor expired, which serves the query. -/
  | timeout (rdIdx : Nat) (query : Option Nat)
  /-- The future of a query was resolved, while the client handled a response to the request at
  position `answers` of the log, or something else than a response. -/
  | resolve (query : Nat) (outcome : Outcome) (answers : Option Nat)
  deriving DecidableEq, Repr

/-- A client and its network. -/
structure Network where
  client : MicaClient
  ages : Nat → Nat
  log : List NetEvent
  error : Option MicaError

namespace Network

/-- The network around a new client. -/
def create (smpCount : Nat) (rqHd : Nat → RequestHeader) : Network :=
  ⟨.bootup smpCount rqHd, fun _ => 0, [], none⟩

/-- The epoch of a descriptor. -/
def epochOf (c : MicaClient) (i : Nat) : BitVec 16 := (c.rds[i]?.map (·.epoch)).getD 0

/-- The events of an effect. -/
def eventsOf (ages : Nat → Nat) (answers : Option Nat) : ClientEffect → List NetEvent
  | .sendPacket requests => requests.map fun request => .transmit request (ages request.rdIdx)
  | .resolve query outcome => [.resolve query outcome answers]

/-- The network after a call of the client. -/
def advance (n : Network) (answers : Option Nat) : Except MicaError MicaClient → Network
  | .error e => { n with error := some e }
  | .ok c =>
    let ages := fun i => n.ages i + (epochOf c i - epochOf n.client i).toNat
    let es := c.effects.drop n.client.effects.length
    ⟨c, ages, n.log ++ es.flatMap (eventsOf ages answers), n.error⟩

/-- The timer of descriptor `i` expires. The reactor disarms the timer before it runs the
callback. -/
def expire (n : Network) (i : Nat) (d : RequestDescriptor Nat) : Network :=
  { n with
      client := n.client.setRd i { d with toArmed := false }
      log := n.log ++ [.timeout i d.pr] }

/-- The record of a response to the request at position `j` of the log reaches the client. Nothing
happens any more after an error. -/
def deliver (n : Network) (response : ResponseRecord × Nat) : Option Network :=
  let (r, j) := response
  if n.error.isSome then some n
  else
    match n.log[j]? with
    | some (.transmit request age) =>
      if r.rh.opaqueId = request.rqHd.opaqueId ∧ n.ages request.rdIdx < age + 2 ^ 16 then
        some (n.advance (some j) (n.client.receiveRecord r))
      else none
    | _ => none

/-- What can happen to a client. -/
inductive Label where
  | query (request : Request)
  | runGranted (k : Nat)
  | tick
  | timeout (i : Nat)
  | receive (p : List UInt8) (answers : List Nat)
  deriving DecidableEq, Repr

variable (hash : List UInt8 → BitVec 64)

/-- The size of the record of a request. -/
def requestSize (request : Request) : Nat :=
  requestHeaderSize + request.key.length + request.val.length

/-- One step of a client and its network. -/
def step (n : Network) (l : Label) : Option Network :=
  if n.error.isSome then none
  else
    match l with
    | .query request =>
      if requestSize request ≤ maxReqLen then
        some (n.advance none (n.client.query hash request))
      else none
    | .runGranted k =>
      if k < n.client.granted.length then some (n.advance none (n.client.runGranted hash k))
      else none
    | .tick => some (n.advance none (n.client.checkRas 5))
    | .timeout i =>
      match n.client.rds[i]? with
      | none => none
      | some d =>
        if d.toArmed then
          let n := n.expire i d
          some (n.advance none (n.client.checkRequestDescriptorTimeout i))
        else none
    | .receive p answers =>
      match receiveRecords p with
      | .error _ => none
      | .ok (records, _) =>
        if records.length = answers.length then (records.zip answers).foldlM deliver n else none

end Network

end Netstar.Spec.Mica
