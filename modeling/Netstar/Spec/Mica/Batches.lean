import Netstar.Spec.Mica.MicaClient

/-!
# `Netstar.Spec.Mica.Batches`: the packets of the request assemblers over time

`consumeLoop` of `Netstar.Spec.Mica.MicaClient` goes through the stream and answers `diverges` for a
request that fits into no packet. `consumeRounds` is the `while` loop of the source, round by round,
with a bound on the number of rounds.

`Batches` is a client with a record of the calls of `append_new_request_descriptor`. Queries and the
timer that checks the assemblers are the only things that happen to it. A query that does not return
ends the run.
-/

set_option autoImplicit false

namespace Netstar.Spec.Mica

namespace RequestAssembler

/-- The `while` loop of `consume_send_stream`, for this number of rounds. `none` means that it is
still running. -/
def consumeRounds : Nat → RequestAssembler → Rds →
    Except MicaError (Option (RequestAssembler × Rds × List ClientEffect))
  | 0, _, _ => .ok none
  | rounds + 1, ra, rds =>
    match ra.sendStream with
    | [] => .ok (some (ra, rds, []))
    | i :: is => do
      let d ← getRd rds i
      if ra.remainingSize < d.requestSize then
        -- The record does not fit: the packet is sent, and the next round takes the record again.
        let (ra, rds, es) ← ra.sendRequestPacket rds
        let rest ← consumeRounds rounds ra rds
        return rest.map fun (ra, rds, es') => (ra, rds, es ++ es')
      else
        consumeRounds rounds
          { remainingSize := ra.remainingSize - d.requestSize, rdIdxs := ra.rdIdxs ++ [i],
            sendStream := is } rds

end RequestAssembler

/-- A client, the pairs of an assembler and a descriptor that was appended to it, and the end of the
program, if the client ran into one. -/
structure Batches where
  client : MicaClient
  appends : List (Nat × Nat)
  error : Option MicaError

namespace Batches

/-- A new client. -/
def create (smpCount : Nat) (rqHd : Nat → RequestHeader) : Batches :=
  ⟨.bootup smpCount rqHd, [], none⟩

/-- What can happen to the client: a query, or a tick of its timer. -/
inductive Label where
  | query (request : Request)
  | tick
  deriving DecidableEq, Repr

/-- The assembler that `send_request_descriptor` picks for descriptor `i`. -/
def assemblerOf (c : MicaClient) (i : Nat) : Nat :=
  MicaClient.calcPartitionId ((c.rds[i]?.map (·.rqHd.keyHash)).getD 0) c.ras.length

/-- The descriptor that the next query gets. -/
def nextRd (c : MicaClient) : List Nat :=
  if c.pendingWorkQueue.mayProceed then c.recycledRds.head?.toList else []

/-- The state after a call of the client that appended these descriptors. -/
def advance (b : Batches) (appended : List Nat) : Except MicaError MicaClient → Batches
  | .error e => { b with error := some e }
  | .ok c => ⟨c, b.appends ++ appended.map fun i => (assemblerOf c i, i), none⟩

variable (hash : List UInt8 → BitVec 64)

/-- One step. -/
def step (b : Batches) (l : Label) : Option Batches :=
  if b.error.isSome then none
  else
    match l with
    | .query request => some (b.advance (nextRd b.client) (b.client.query hash request))
    | .tick => some (b.advance [] (b.client.checkRas 5))

/-- The packets that the client sent. -/
def packets (c : MicaClient) : List (List SentRequest) :=
  c.effects.filterMap fun
    | .sendPacket requests => some requests
    | .resolve .. => none

/-- The descriptors whose requests assembler `a` sent, in order. -/
def sentBy (c : MicaClient) (a : Nat) : List Nat :=
  ((packets c).flatten.filter fun r =>
    MicaClient.calcPartitionId r.rqHd.keyHash c.ras.length = a).map (·.rdIdx)

/-- The descriptors that were appended to assembler `a`, in order. -/
def appendedTo (b : Batches) (a : Nat) : List Nat := (b.appends.filter fun x => x.1 = a).map (·.2)

end Batches

end Netstar.Spec.Mica
