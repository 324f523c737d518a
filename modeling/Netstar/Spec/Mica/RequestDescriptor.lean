import Netstar.Spec.Mica.Def

/-!
# `Netstar.Spec.Mica.RequestDescriptor`: `mica_client::request_descriptor`

A request descriptor holds one outstanding query: its header, its key and value buffers, the
retry count and the promise of the caller. `mc_assert` is compiled out in the source
(`ENABLE_MC_ASSERTION` is 0), so the definitions check none of its conditions. A timer asserts on
its own that it is not armed twice (`timer::arm_state`). This end of the program is
`MicaError.timerArmed`.

A promise is the identity `ι` of the query it belongs to. The 64-bit key hash comes from the
CityHash code of the repository and is the parameter `hash`.
-/

set_option autoImplicit false

namespace Netstar.Spec.Mica

/-- The ways in which the client stops the program or runs into undefined behaviour. -/
inductive MicaError where
  /-- `assert(!_armed)` of `timer::arm_state`. -/
  | timerArmed
  /-- `front()` of an empty queue. -/
  | emptyQueue
  /-- An index outside a vector. -/
  | badIndex
  /-- An access to an empty `_pr`. -/
  | noPromise
  /-- A loop that does not end. -/
  | diverges
  deriving DecidableEq, Repr

/-- `mica_client::action`. -/
inductive Action where
  | recycleRd
  | resendRd
  | noAction
  deriving DecidableEq, Repr

/-- `request_descriptor`. `toArmed` tells whether the timer `_to` is armed. -/
structure RequestDescriptor (ι : Type) where
  rdIndex : BitVec 16
  epoch : BitVec 16
  retryCount : Nat
  toArmed : Bool
  rqHd : RequestHeader
  keyLen : Nat
  keyBuf : List UInt8
  valLen : Nat
  valBuf : List UInt8
  pr : Option ι
  requestSize : Nat
  deriving DecidableEq, Repr

/-- The arguments of `query`, which `new_action` gets. -/
structure Request where
  op : Operation
  keyLen : Nat
  key : List UInt8
  valLen : Nat
  val : List UInt8
  deriving DecidableEq, Repr

/-- How a promise is resolved. -/
inductive Outcome where
  /-- `set_value` with the response packet. -/
  | value (response : List UInt8)
  /-- `set_exception(kill_flow())`. -/
  | killFlow
  deriving DecidableEq, Repr

namespace RequestDescriptor

variable {ι : Type}

/-- `max_retries`. -/
def maxRetries : Nat := 5

/-- The constructor. `_rq_hd` has no initializer, so its content is arbitrary. -/
def create (rdIndex : Nat) (rqHd : RequestHeader) : RequestDescriptor ι where
  rdIndex := BitVec.ofNat 16 rdIndex
  epoch := 0
  retryCount := 0
  toArmed := false
  rqHd := rqHd
  keyLen := 0
  keyBuf := []
  valLen := 0
  valBuf := []
  pr := none
  requestSize := requestHeaderSize

/-- `(static_cast<uint32_t>(_rd_index) << 16) | static_cast<uint32_t>(_epoch)`. -/
def currentOpaque (d : RequestDescriptor ι) : BitVec 32 :=
  (d.rdIndex.setWidth 32 <<< 16) ||| d.epoch.setWidth 32

/-- `adjust_request_header_opaque`. -/
def adjustRequestHeaderOpaque (d : RequestDescriptor ι) : RequestDescriptor ι :=
  { d with rqHd := { d.rqHd with opaqueId := d.currentOpaque } }

/-- `setup_request_header`. It does not touch `reserved1`. -/
def setupRequestHeader (hash : List UInt8 → BitVec 64) (d : RequestDescriptor ι)
    (op : Operation) : RequestDescriptor ι :=
  { d with
      rqHd :=
        { d.rqHd with
            operation := op.toByte
            result := resultSuccess
            keyHash := hash (d.keyBuf.take d.keyLen)
            opaqueId := d.currentOpaque
            reserved0 := 0
            kvLengthVec := BitVec.ofNat 32 ((d.keyLen <<< 24) ||| d.valLen) } }

/-- `new_action`. -/
def newAction (hash : List UInt8 → BitVec 64) (d : RequestDescriptor ι) (r : Request) :
    RequestDescriptor ι :=
  setupRequestHeader hash
    { d with
        keyLen := r.keyLen, keyBuf := r.key, valLen := r.valLen, valBuf := r.val
        requestSize := requestHeaderSize + r.key.length + r.val.length } r.op

/-- `obtain_future`, for the query `q`. -/
def obtainFuture (d : RequestDescriptor ι) (q : ι) : RequestDescriptor ι := { d with pr := some q }

/-- `append_frags`: the bytes that the descriptor adds to a message. -/
def appendFrags (d : RequestDescriptor ι) : List UInt8 := d.rqHd.toBytes ++ d.keyBuf ++ d.valBuf

/-- `arm_timer`. -/
def armTimer (d : RequestDescriptor ι) : Except MicaError (RequestDescriptor ι) :=
  if d.toArmed then .error .timerArmed else .ok { d with toArmed := true }

/-- `normal_recycle_prep`. -/
def normalRecyclePrep (d : RequestDescriptor ι) : RequestDescriptor ι :=
  { d with epoch := d.epoch + 1, retryCount := 0, toArmed := false, pr := none }

/-- `timeout_recycle_prep`. -/
def timeoutRecyclePrep (d : RequestDescriptor ι) : RequestDescriptor ι :=
  { d with epoch := d.epoch + 1, retryCount := 0, pr := none }

/-- `match_response`: the action, the descriptor, and the promise that was resolved. -/
def matchResponse (d : RequestDescriptor ι) (resHd : RequestHeader) (response : List UInt8) :
    Except MicaError (Action × RequestDescriptor ι × Option (ι × Outcome)) :=
  if resHd.epoch ≠ d.epoch then .ok (.noAction, d, none)
  else
    match d.pr with
    | none => .error .noPromise
    | some q => .ok (.recycleRd, d.normalRecyclePrep, some (q, .value response))

/-- `timeout_handler`. -/
def timeoutHandler (d : RequestDescriptor ι) :
    Except MicaError (Action × RequestDescriptor ι × Option (ι × Outcome)) :=
  let d := { d with retryCount := d.retryCount + 1 }
  if d.retryCount = maxRetries then
    match d.pr with
    | none => .error .noPromise
    | some q => .ok (.recycleRd, d.timeoutRecyclePrep, some (q, .killFlow))
  else
    .ok (.resendRd, { d with epoch := d.epoch + 1 }.adjustRequestHeaderOpaque, none)

end RequestDescriptor

end Netstar.Spec.Mica
