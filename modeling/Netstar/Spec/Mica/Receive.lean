import Netstar.Spec.Mica.BatchHeader

/-!
# `Netstar.Spec.Mica.Receive`: `mica_client::receive`

`Netstar.Spec.Mica.Response` walks the records of a packet without a client, and
`MicaClient.receiveRecord` handles one record without a packet. In the source both are one loop: a
record is handled before the header of the next one is read. So the first fault of either kind ends
the loop. `receive` also returns the offset at which the loop ended, or nothing for a packet that it
drops.
-/

set_option autoImplicit false

namespace Netstar.Spec.Mica

/-- The ways in which `receive` leaves the packet or its tables. -/
inductive ReceiveError where
  | packet (e : ParseError)
  | client (e : MicaError)
  deriving DecidableEq, Repr

namespace MicaClient

/-- The loop of `receive`. -/
def receiveLoop (p : List UInt8) :
    Nat → Nat → MicaClient → Except ReceiveError (MicaClient × Nat)
  | 0, offset, c => if offset < p.length then .error (.packet .outOfFuel) else .ok (c, offset)
  | fuel + 1, offset, c =>
    if offset < p.length then
      match getHeader p offset requestHeaderSize with
      | none => .error (.packet .nullHeader)
      | some bytes =>
        let rh := RequestHeader.ofBytes bytes
        -- The argument `p.share(..)` is there before `match_response` runs.
        if offset + totalResponseLength rh ≤ p.length then
          match c.receiveRecord ⟨rh, share p offset (totalResponseLength rh)⟩ with
          | .error e => .error (.client e)
          | .ok c => receiveLoop p fuel (offset + totalResponseLength rh) c
        else .error (.packet .sharePastEnd)
    else .ok (c, offset)

/-- `receive`. A record has at least 24 bytes, so the length of the packet is fuel enough. -/
def receive (p : List UInt8) (nrFrags : Nat) (c : MicaClient) :
    Except ReceiveError (MicaClient × Option Nat) :=
  if !isValid p || !isResponse p || nrFrags != 1 then .ok (c, none)
  else
    match receiveLoop p p.length requestBatchHeaderSize c with
    | .error e => .error e
    | .ok (c, offset) => .ok (c, some offset)

end MicaClient

end Netstar.Spec.Mica
