import Netstar.Spec.Mica.Response

/-!
# `Netstar.Spec.Mica.MicaClient`: request assemblers and `mica_client`

The client has a fixed number of request descriptors. A query takes one from `_recycled_rds`, or
waits on the semaphore `_pending_work_queue` until one comes back. A request assembler collects the
descriptors whose requests go to one partition of the server, and sends them in one packet.

The semaphore sets the promise of a waiter, and the continuation of the waiter runs later. The
waiters in between are `granted`. The continuations may run in any order.

`effects` lists what the client did to the world around it. The addresses in the header of a
packet, and the fields of the header that depend on its length, are not part of the model.
-/

set_option autoImplicit false

namespace Netstar.Spec.Mica

/-- `max_req_len`. `ETHER_MAX_LEN` is 1518 and `ETHER_CRC_LEN` is 4. -/
def maxReqLen : Nat := 1518 - 4 - requestBatchHeaderSize

/-- `total_request_descriptor_count`. -/
def totalRequestDescriptorCount : Nat := 2048

/-- `_rds`. The promise of a descriptor is the number of the query. -/
abbrev Rds := List (RequestDescriptor Nat)

/-- `_rds[i]`. -/
def getRd (rds : Rds) (i : Nat) : Except MicaError (RequestDescriptor Nat) :=
  match rds[i]? with
  | none => .error .badIndex
  | some d => .ok d

/-- A request in a packet that was sent, with the query that waits for the response. -/
structure SentRequest where
  rdIdx : Nat
  rqHd : RequestHeader
  frags : List UInt8
  query : Option Nat
  deriving DecidableEq, Repr

/-- What a client does to the world around it. -/
inductive ClientEffect where
  | sendPacket (requests : List SentRequest)
  | resolve (query : Nat) (outcome : Outcome)
  deriving DecidableEq, Repr

/-! ### Request assemblers -/

/-- `request_assembler`. -/
structure RequestAssembler where
  remainingSize : Nat
  rdIdxs : List Nat
  sendStream : List Nat
  deriving DecidableEq, Repr

namespace RequestAssembler

/-- The constructor. -/
def create : RequestAssembler := ⟨maxReqLen, [], []⟩

/-- The first loop of `send_request_packet`. -/
def appendFrags (rds : Rds) : List Nat → Except MicaError (List SentRequest)
  | [] => .ok []
  | i :: is => do
    let d ← getRd rds i
    let requests ← appendFrags rds is
    return ⟨i, d.rqHd, d.appendFrags, d.pr⟩ :: requests

/-- The second loop of `send_request_packet`. -/
def armTimers : List Nat → Rds → Except MicaError Rds
  | [], rds => .ok rds
  | i :: is, rds => do
    let d ← getRd rds i
    let d ← d.armTimer
    armTimers is (rds.set i d)

/-- `send_request_packet`. -/
def sendRequestPacket (ra : RequestAssembler) (rds : Rds) :
    Except MicaError (RequestAssembler × Rds × List ClientEffect) := do
  let requests ← appendFrags rds ra.rdIdxs
  let rds ← armTimers ra.rdIdxs rds
  return ({ ra with rdIdxs := [], remainingSize := maxReqLen }, rds, [.sendPacket requests])

/-- The branch of the loop of `consume_send_stream` for a request of the given size that does not
fit into the packet. -/
def makeRoom (ra : RequestAssembler) (rds : Rds) (size : Nat) :
    Except MicaError (RequestAssembler × Rds × List ClientEffect) :=
  if ra.remainingSize < size then ra.sendRequestPacket rds else .ok (ra, rds, [])

/-- The loop of `consume_send_stream`, over the stream. A request that does not even fit into an
empty packet keeps the loop of the source sending empty packets. -/
def consumeLoop : List Nat → RequestAssembler → Rds →
    Except MicaError (RequestAssembler × Rds × List ClientEffect)
  | [], ra, rds => .ok ({ ra with sendStream := [] }, rds, [])
  | i :: is, ra, rds => do
    let d ← getRd rds i
    let (ra, rds, es) ← ra.makeRoom rds d.requestSize
    if ra.remainingSize < d.requestSize then .error .diverges
    else
      let ra :=
        { ra with
            rdIdxs := ra.rdIdxs ++ [i], remainingSize := ra.remainingSize - d.requestSize }
      let (ra, rds, es') ← consumeLoop is ra rds
      return (ra, rds, es ++ es')

/-- `consume_send_stream`. -/
def consumeSendStream (ra : RequestAssembler) (rds : Rds) :
    Except MicaError (RequestAssembler × Rds × List ClientEffect) :=
  consumeLoop ra.sendStream ra rds

/-- `append_new_request_descriptor`. -/
def appendNewRequestDescriptor (i : Nat) (ra : RequestAssembler) (rds : Rds) :
    Except MicaError (RequestAssembler × Rds × List ClientEffect) :=
  { ra with sendStream := ra.sendStream ++ [i] }.consumeSendStream rds

/-- `force_send`. -/
def forceSend (ra : RequestAssembler) (rds : Rds) :
    Except MicaError (RequestAssembler × Rds × List ClientEffect) :=
  if 0 < ra.rdIdxs.length then ra.sendRequestPacket rds else .ok (ra, rds, [])

/-- The two calls that `check_request_assemblers` makes on an assembler. -/
def check (ra : RequestAssembler) (rds : Rds) :
    Except MicaError (RequestAssembler × Rds × List ClientEffect) := do
  let (ra, rds, es) ← ra.consumeSendStream rds
  let (ra, rds, es') ← ra.forceSend rds
  return (ra, rds, es ++ es')

end RequestAssembler

/-! ### The semaphore -/

/-- A semaphore whose waiters ask for one unit each and do not time out. -/
structure Semaphore (α : Type) where
  count : Nat
  waitList : List α
  deriving DecidableEq, Repr

namespace Semaphore

variable {α : Type}

/-- `may_proceed(1)`, which decides what `try_wait(1)` returns. -/
def mayProceed (s : Semaphore α) : Bool := 0 < s.count && s.waitList.isEmpty

/-- The loop of `signal`: the semaphore, and the waiters whose promises are set. -/
def wakeUp : Nat → List α → Semaphore α × List α
  | 0, ws => (⟨0, ws⟩, [])
  | n, [] => (⟨n, []⟩, [])
  | n + 1, w :: ws =>
    let (s, woken) := wakeUp n ws
    (s, w :: woken)

/-- `signal(1)`. -/
def signal (s : Semaphore α) : Semaphore α × List α := wakeUp (s.count + 1) s.waitList

end Semaphore

/-! ### The client -/

/-- The arguments of a `query` that waits, with the number of the query. -/
structure WaitingQuery where
  query : Nat
  request : Request
  deriving DecidableEq, Repr

/-- `mica_client`. `whichRa` is the state of the callback of `_check_ras_timer`, and `queryCount` is
the number of queries so far. -/
structure MicaClient where
  rds : Rds
  ras : List RequestAssembler
  pendingWorkQueue : Semaphore WaitingQuery
  granted : List WaitingQuery
  recycledRds : List Nat
  whichRa : Nat
  queryCount : Nat
  effects : List ClientEffect
  deriving DecidableEq, Repr

namespace MicaClient

/-- The client after `bootup`, for a server with this number of cores. The queue mapping, which is
calculated before, divides by this number, so it is not 0. -/
def bootup (smpCount : Nat) (rqHd : Nat → RequestHeader) : MicaClient where
  rds := (List.range totalRequestDescriptorCount).map fun i => .create i (rqHd i)
  ras := List.replicate smpCount .create
  pendingWorkQueue := ⟨totalRequestDescriptorCount, []⟩
  granted := []
  recycledRds := List.range totalRequestDescriptorCount
  whichRa := 0
  queryCount := 0
  effects := []

/-- The client with another descriptor at an index. -/
def setRd (c : MicaClient) (i : Nat) (d : RequestDescriptor Nat) : MicaClient :=
  { c with rds := c.rds.set i d }

/-- `calc_partition_id`. -/
def calcPartitionId (keyHash : BitVec 64) (partitionCount : Nat) : Nat :=
  ((keyHash >>> 48).toNat % partitionCount) % 2 ^ 16

/-- A call of a function of the assembler at index `a`. -/
def callRa (c : MicaClient) (a : Nat)
    (f : RequestAssembler → Rds → Except MicaError (RequestAssembler × Rds × List ClientEffect)) :
    Except MicaError MicaClient :=
  match c.ras[a]? with
  | none => .error .badIndex
  | some ra => do
    let (ra, rds, es) ← f ra c.rds
    return { c with ras := c.ras.set a ra, rds := rds, effects := c.effects ++ es }

/-- `send_request_descriptor`. -/
def sendRequestDescriptor (c : MicaClient) (i : Nat) : Except MicaError MicaClient := do
  let d ← getRd c.rds i
  c.callRa (calcPartitionId d.rqHd.keyHash c.ras.length)
    (RequestAssembler.appendNewRequestDescriptor i)

variable (hash : List UInt8 → BitVec 64)

/-- The code that both branches of `query` run when they have a unit. -/
def startQuery (c : MicaClient) (w : WaitingQuery) : Except MicaError MicaClient :=
  match c.recycledRds with
  | [] => .error .emptyQueue
  | i :: recycled => do
    let d ← getRd c.rds i
    let c := { c with recycledRds := recycled }
    let c ← (c.setRd i (d.newAction hash w.request)).sendRequestDescriptor i
    let d ← getRd c.rds i
    return c.setRd i (d.obtainFuture w.query)

/-- `query`. -/
def query (c : MicaClient) (request : Request) : Except MicaError MicaClient :=
  let w : WaitingQuery := ⟨c.queryCount, request⟩
  let c := { c with queryCount := c.queryCount + 1 }
  let s := c.pendingWorkQueue
  if s.mayProceed then
    { c with pendingWorkQueue := { s with count := s.count - 1 } }.startQuery hash w
  else .ok { c with pendingWorkQueue := { s with waitList := s.waitList ++ [w] } }

/-- The continuation of the granted waiter at index `k`. -/
def runGranted (c : MicaClient) (k : Nat) : Except MicaError MicaClient :=
  match c.granted[k]? with
  | none => .error .badIndex
  | some w => { c with granted := c.granted.eraseIdx k }.startQuery hash w

/-- `_recycled_rds.push_back(rd_idx)` and `_pending_work_queue.signal(1)`. -/
def recycle (c : MicaClient) (i : Nat) : MicaClient :=
  let (s, woken) := c.pendingWorkQueue.signal
  { c with
      recycledRds := c.recycledRds ++ [i], pendingWorkQueue := s
      granted := c.granted ++ woken }

/-- The client after a handler of descriptor `i` ran, up to the `switch` on its action. -/
def afterHandler (c : MicaClient) (i : Nat) (d : RequestDescriptor Nat)
    (resolved : Option (Nat × Outcome)) : MicaClient :=
  { c.setRd i d with
      effects := c.effects ++ resolved.toList.map fun (q, outcome) => .resolve q outcome }

/-- `check_request_descriptor_timeout`. -/
def checkRequestDescriptorTimeout (c : MicaClient) (i : Nat) : Except MicaError MicaClient := do
  let d ← getRd c.rds i
  let (action, d, resolved) ← d.timeoutHandler
  let c := c.afterHandler i d resolved
  match action with
  | .noAction => return c
  | .recycleRd => return c.recycle i
  | .resendRd => c.sendRequestDescriptor i

/-- The body of the loop of `receive`, for one record. -/
def receiveRecord (c : MicaClient) (r : ResponseRecord) : Except MicaError MicaClient := do
  let d ← getRd c.rds r.rh.rdIdx
  let (action, d, resolved) ← d.matchResponse r.rh r.pkt
  let c := c.afterHandler r.rh.rdIdx d resolved
  match action with
  | .noAction | .resendRd => return c
  | .recycleRd => return c.recycle r.rh.rdIdx

/-- `check_request_assemblers`. -/
def checkRequestAssemblers (c : MicaClient) (a : Nat) : Except MicaError MicaClient :=
  c.callRa a RequestAssembler.check

/-- The loop in the callback of `_check_ras_timer`. -/
def checkRas : Nat → MicaClient → Except MicaError MicaClient
  | 0, c => .ok c
  | rounds + 1, c => do
    let c ← c.checkRequestAssemblers c.whichRa
    checkRas rounds { c with whichRa := (c.whichRa + 1) % c.ras.length }

end MicaClient

end Netstar.Spec.Mica
