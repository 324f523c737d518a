import Netstar.Proofs.Net.TcbAsserts
import Netstar.Proofs.Net.TcbHandshake

/-!
# `Netstar.Proofs.Net.TcbWindow`: new data and the window of the peer

`get_transmit_packet` asks `can_send` how much new data may go out. `can_send` computes the usable
window `SND.UNA + SND.WND - SND.NXT` with numbers that wrap around, from the window in `_snd.window`.
Two things go wrong. A peer may shrink its window below the bytes in flight. The usable window is
negative then, and as an `unsigned` it is close to `2^32`. And `_snd.window` is not always the window
that the peer advertised last: `update_window` runs when a segment acknowledges new data or opens a
window of zero, but not for another segment that acknowledges what was acknowledged before.

`Advert` follows the advertisements beside the run of the connection, whichever of them the code
takes. `WindowCovers` says exactly when a segment of new data ends inside the last one.
-/

set_option autoImplicit false

namespace Netstar.Proofs.Net

open Netstar.Lib
open Netstar.Spec.Net

/-- The distance from `SND.UNA` to `SND.NXT`. -/
def inFlight (s : Send) : Nat := (s.next.raw - s.unacknowledged.raw).toNat

/-- The send side on which an event calls `get_transmit_packet`. The three callers of `output_one`
without a retransmission are `get_packet`, the continuation of `close` and `persist`. -/
def cutsFrom (s : Tcb) : TcbEvent → Option Send
  | .getPacket => if s.packetq = [] then some s.snd else none
  | .closeContinuation =>
    some { s.snd with closed := true, closeReady := s.snd.closeReady - 1 }
  | .persist =>
    some { s.snd with
      windowProbe := true, zeroWindowProbingOut := s.snd.zeroWindowProbingOut + 1 }
  | _ => none

/-! ### Advertisements -/

/-- A window that the peer advertised, with the sequence and acknowledgment numbers of the segment. -/
structure Advert where
  window : BitVec 32
  wl1 : TcpSeq
  wl2 : TcpSeq

namespace Advert

/-- The window of a SYN is never scaled. -/
def ofSyn (th : TcbHdr) : Advert := ⟨th.window.zeroExtend 32, th.seq, th.ack⟩

/-- A segment advertises its window when it is acceptable, its acknowledgment number lies between
`SND.UNA` and `SND.NXT`, and it is not older than the segment of the last advertisement: it has a
higher sequence number, or it acknowledges more, or both numbers are the same. -/
def afterSegment (a : Advert) (s : Tcb) (th : TcbHdr) (p : Packet) : Advert :=
  if s.state = .synSent then
    if th.fSyn && !th.fRst && !(th.fAck && (th.ack.le s.snd.initial || s.snd.next.lt th.ack)) then
      ofSyn th
    else a
  else
    let p := p.drop (th.dataOffset * 4)
    let segSeq := (s.rcv.trimDuplicate th.seq p).1
    if s.rcv.segmentAcceptable th.seq p.length && !th.fRst && !th.fSyn && th.fAck &&
        s.snd.unacknowledged.le th.ack && th.ack.le s.snd.next &&
        (a.wl1.lt segSeq || a.wl2.lt th.ack || (a.wl1 = segSeq && a.wl2 = th.ack)) then
      ⟨scaleWindow th.window s.snd.windowScale, segSeq, th.ack⟩
    else a

/-- The last advertisement after an event. -/
def after (a : Advert) (s : Tcb) : TcbEvent → Advert
  | .segment th p => a.afterSegment s th p
  | _ => a

end Advert

/-- A session, and what the peer advertised last. -/
structure WindowRun where
  session : Session
  advert : Advert

namespace WindowRun

/-- One event. -/
def step (tso : Bool) (r : WindowRun) (e : TcbEvent) : Option WindowRun :=
  (r.session.step tso e).map fun t => ⟨t, r.advert.after r.session.tcb e⟩

/-- The start of a connection. A listener has seen a SYN, and a peer that is only now connected to has
not advertised anything. -/
def Opens (r : WindowRun) : Prop :=
  (∃ th, Session.PassiveOpen th r.session ∧ r.advert = .ofSyn th) ∨
    Session.ActiveOpen r.session ∧ r.advert = ⟨0, ⟨0⟩, ⟨0⟩⟩

end WindowRun

/-- A segment of new data that starts at `SND.NXT` ends at or before `SND.UNA` plus the window. -/
def EndsInside (window : BitVec 32) (s : Send) (p : Packet) : Prop :=
  p = [] ∨ inFlight s + p.length ≤ window.toNat

/-- The segment that the event cuts in ESTABLISHED or CLOSE_WAIT ends inside the window that the peer
advertised last, if it is not a probe. -/
def CutsInside (tso : Bool) (r : WindowRun) (e : TcbEvent) : Prop :=
  r.session.tcb.state = .established ∨ r.session.tcb.state = .closeWait →
    ∀ snd, cutsFrom r.session.tcb e = some snd → snd.windowProbe = false →
      EndsInside r.advert.window snd (snd.getTransmitPacket tso).1

/-- The number of bytes that every limit but the window lets out. -/
def roomBesideWindow (tso : Bool) (s : Send) : Nat :=
  let most := s.cwnd + 2 * s.mss.zeroExtend 32
  let recovery :=
    if s.dupacks = 1 ∨ s.dupacks = 2 then
      if s.flightSize ≤ most then (most - s.flightSize).toNat else 0
    else if 3 ≤ s.dupacks then s.mss.toNat
    else s.cwnd.toNat
  min (min (min s.unsent.flatten.length s.unsentLen.toNat) (min s.cwnd.toNat recovery))
    (s.maxPayload tso).toNat

/-- The window in `_snd.window` covers the bytes in flight and is not larger than the one that the peer
advertised, or it does not matter: it is used up to the byte, nothing else lets a byte out, or all that
can go out fits in the advertised window. -/
def Covers (tso : Bool) (window : BitVec 32) (s : Send) : Prop :=
  (inFlight s < s.window.toNat ∧ s.window.toNat ≤ window.toNat) ∨ inFlight s = s.window.toNat ∨
    roomBesideWindow tso s = 0 ∨ inFlight s + roomBesideWindow tso s ≤ window.toNat

/-- `Covers` holds when the event cuts a segment in ESTABLISHED or CLOSE_WAIT. -/
def WindowCovers (tso : Bool) (r : WindowRun) (e : TcbEvent) : Prop :=
  r.session.tcb.state = .established ∨ r.session.tcb.state = .closeWait →
    ∀ snd, cutsFrom r.session.tcb e = some snd → snd.windowProbe = false →
      Covers tso r.advert.window snd

section
variable {s : Send} {tso : Bool}

/-! ### One segment -/

/-- The usable window as `can_send` computes it. -/
def usableWindow (s : Send) : BitVec 32 := (s.unacknowledged.raw + s.window) - s.next.raw

/-- A usable window below zero is close to `2^32` as an `unsigned`. -/
theorem toNat_usableWindow : (usableWindow s).toNat =
    if inFlight s ≤ s.window.toNat then s.window.toNat - inFlight s
    else 2 ^ 32 + s.window.toNat - inFlight s := by
  unfold usableWindow inFlight
  split
  · bv_omega
  · bv_omega

/-- What `can_send` returns outside of a window probe. -/
theorem canSend_fst (hprobe : s.windowProbe = false) :
    s.canSend.1 =
      (if s.dupacks = 1 ∨ s.dupacks = 2 then
        if s.flightSize ≤ s.cwnd + 2 * s.mss.zeroExtend 32 then
          umin (umin s.cwnd (umin (usableWindow s) s.unsentLen))
            (s.cwnd + 2 * s.mss.zeroExtend 32 - s.flightSize)
        else 0
      else if 3 ≤ s.dupacks then
        umin (s.mss.zeroExtend 32) (umin s.cwnd (umin (usableWindow s) s.unsentLen))
      else umin s.cwnd (umin (usableWindow s) s.unsentLen)) := by
  unfold Send.canSend
  rw [if_neg (by simp [hprobe])]
  dsimp only
  split
  · rfl
  · split
    · rfl
    · rfl

/-- The payload is the front of the unsent bytes that the room allows. -/
theorem getTransmitPacket_fst (hsized : Sized s.unsent) :
    (s.getTransmitPacket tso).1 = s.unsent.flatten.take (payloadRoom tso s).toNat := by
  obtain ⟨n, hn⟩ := getTransmitPacket_eq tso s
  rw [hn]
  exact (cutUnsent_spec s.unsent hsized (payloadRoom tso s)).1

/-- A segment takes what the window and the other limits let out. -/
theorem length_getTransmitPacket (hsized : Sized s.unsent) (hprobe : s.windowProbe = false) :
    (s.getTransmitPacket tso).1.length = min (roomBesideWindow tso s) (usableWindow s).toNat := by
  rw [getTransmitPacket_fst hsized, List.length_take, payloadRoom, toNat_umin, canSend_fst hprobe,
    roomBesideWindow]
  split
  · split
    · rw [toNat_umin, toNat_umin, toNat_umin]
      ac_rfl
    · have hzero : (0 : BitVec 32).toNat = 0 := rfl
      simp only [hzero, Nat.min_zero, Nat.zero_min]
  · split
    · have hmss : (s.mss.zeroExtend 32).toNat = s.mss.toNat := by
        rw [BitVec.toNat_setWidth]
        exact Nat.mod_eq_of_lt (by omega)
      rw [toNat_umin, toNat_umin, toNat_umin, hmss]
      ac_rfl
    · rw [toNat_umin, toNat_umin, Nat.min_self]
      ac_rfl

/-- A new segment ends inside the advertised window exactly if `Covers` holds. -/
theorem endsInside_iff (hsized : Sized s.unsent) (hprobe : s.windowProbe = false) (window : BitVec 32) :
    EndsInside window s (s.getTransmitPacket tso).1 ↔ Covers tso window s := by
  have hlen := @length_getTransmitPacket s tso hsized hprobe
  rw [toNat_usableWindow] at hlen
  have hflight : inFlight s < 2 ^ 32 := BitVec.isLt _
  have hwindow := window.isLt
  rw [EndsInside, Covers, ← List.length_eq_zero_iff, hlen]
  split
  · omega
  · omega

end

/-! ### Runs -/

/-- The packets that wait to be sent have their `unsigned` lengths in every state of a run. -/
theorem sized_step {s t : Session} {tso : Bool} {e : TcbEvent} (h : Sized s.tcb.snd.unsent)
    (hstep : s.step tso e = some t) : Sized t.tcb.snd.unsent := by
  obtain ⟨-, hen, ⟨f, -, rfl⟩ | ⟨o, u, hu, rfl⟩⟩ := step_cases hstep
  · exact h
  · exact stable_sized.handle h hen hu

/-- A new connection has nothing to send. -/
theorem WindowRun.Opens.sized {r : WindowRun} (hopen : r.Opens) :
    Sized r.session.tcb.snd.unsent := by
  have hsession : (∃ th, Session.PassiveOpen th r.session) ∨ Session.ActiveOpen r.session := by
    rcases hopen with ⟨th, h, -⟩ | ⟨h, -⟩
    · exact .inl ⟨th, h⟩
    · exact .inr h
  rw [(opening_of_open hsession).tcb.unsent]
  exact sized_nil

/-- In a run from the start of a connection, whatever windows the peer advertises, every segment of new
data ends inside the window that was advertised last, if and only if that window covers it whenever such
a segment is cut. -/
theorem newData_inside_window_iff {r : WindowRun} {tso : Bool} (hopen : r.Opens)
    (es : List TcbEvent) :
    Guarded (WindowRun.step tso) (CutsInside tso) r es ↔
      Guarded (WindowRun.step tso) (WindowCovers tso) r es := by
  refine guarded_congr (fun r => Sized r.session.tcb.snd.unsent) (fun r e t h hstep => ?_)
    (fun r e hsized => ?_) hopen.sized es
  · obtain ⟨u, hu, rfl⟩ := Option.map_eq_some_iff.mp hstep
    exact sized_step h hu
  · -- An event does not touch the unsent packets before it cuts one.
    have hcut : ∀ snd, cutsFrom r.session.tcb e = some snd → Sized snd.unsent := by
      intro snd hsnd
      cases e with
      | getPacket =>
        rw [cutsFrom] at hsnd
        split at hsnd
        · cases hsnd
          exact hsized
        · cases hsnd
      | closeContinuation | persist =>
        cases hsnd
        exact hsized
      | _ => cases hsnd
    refine imp_congr_right fun _ => forall_congr' fun snd => ?_
    exact imp_congr_right fun hsnd => imp_congr_right fun hprobe => endsInside_iff (hcut snd hsnd) hprobe _

/-- The connection that a listener opens for `lastSyn`. -/
def acceptedRun : WindowRun := ⟨{ tcb := acceptedTcb }, .ofSyn lastSyn⟩

/-- The sample run starts with an open connection. -/
theorem opens_acceptedRun : acceptedRun.Opens := .inl ⟨lastSyn, passiveOpen_acceptedTcb, rfl⟩

/-- Whether a segment ends inside the window can be computed. -/
instance decidableEndsInside (window : BitVec 32) (s : Send) (p : Packet) :
    Decidable (EndsInside window s p) :=
  inferInstanceAs (Decidable (_ ∨ _))

/-- Whether the window covers what is sent can be computed. -/
instance decidableCovers (tso : Bool) (window : BitVec 32) (s : Send) : Decidable (Covers tso window s) :=
  inferInstanceAs (Decidable (_ ∨ _))

/-- Whether the segments of an event are cut inside the window can be computed. -/
instance decidableCutsInside (tso : Bool) (r : WindowRun) (e : TcbEvent) :
    Decidable (CutsInside tso r e) :=
  inferInstanceAs (Decidable (_ → ∀ snd ∈ cutsFrom r.session.tcb e, _ → _))

/-- Whether the window covers an event can be computed. -/
instance decidableWindowCovers (tso : Bool) (r : WindowRun) (e : TcbEvent) :
    Decidable (WindowCovers tso r e) :=
  inferInstanceAs (Decidable (_ → ∀ snd ∈ cutsFrom r.session.tcb e, _ → _))

/-- A peer that shrinks its window to one byte while two are in flight, and a peer that shrinks it
before anything is sent, with an acknowledgment that brings nothing new. What the user sends next goes
out all the same, behind the end of the window. -/
theorem not_newData_inside_shrunk_window :
    acceptedRun.Opens ∧
      ¬Guarded (WindowRun.step false) (CutsInside false) acceptedRun
        [.segment (plainHdr 0 0 false) (List.replicate 20 0), .send [1, 2, 3], .getPacket,
          .segment { plainHdr 0 1 false with window := 1 } (List.replicate 20 0), .send [4],
          .getPacket] ∧
      ¬Guarded (WindowRun.step false) (CutsInside false) acceptedRun
        [.segment (plainHdr 0 0 false) (List.replicate 20 0),
          .segment { plainHdr 0 0 false with window := 1 } (List.replicate 20 0), .send [1, 2, 3],
          .getPacket] :=
  ⟨opens_acceptedRun, by decide +kernel, by decide +kernel⟩

/-- The first byte of a connection fits in the window. -/
theorem newData_inside_window_first :
    Guarded (WindowRun.step false) (CutsInside false) acceptedRun
      [.segment (plainHdr 0 0 false) (List.replicate 20 0), .send [1], .getPacket] :=
  (newData_inside_window_iff opens_acceptedRun _).mpr (by decide +kernel)

end Netstar.Proofs.Net
