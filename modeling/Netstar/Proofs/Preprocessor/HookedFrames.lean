import Netstar.Lib.Run
import Netstar.Proofs.Net.MergeBytes
import Netstar.Proofs.AsyncFlow.HookKeys
import Netstar.Proofs.Preprocessor.TcpReorder

/-!
# `Netstar.Proofs.Preprocessor.HookedFrames`: header lengths from the wire

The hook in front of the preprocessor checks that the first 20 bytes of the TCP header lie in the
packet, and that the data offset is not smaller. It does not check that the data offset is not larger
than the packet. `handle_packet_send` subtracts the length of all headers from the length of the packet.
`handlePacketSend_safe_iff` says that it is safe as long as the headers fit, whatever the peers send,
and only then.

The invariant of a run is `Sound`. The peers need not agree on one stream, but the preprocessor does not
look at bytes (`acceptSegment_erase`). So a flow behaves like the same flow with zero bytes, which is a
stream, and `Tracks` says what its map looks like.
-/

set_option autoImplicit false

namespace Netstar.Proofs.Preprocessor

open Netstar.Lib (Agrees run Meets meets_congr map_eq_ok)
open Netstar.Proofs.AsyncFlow (recvFunc_spec ipHeader transportOffset)
open Netstar.Proofs.Net
open Netstar.Spec.AsyncFlow (GeneratedEvents)
open Netstar.Spec.AsyncFlow.SdAsyncFlowHook (recvFunc)
open Netstar.Spec.Net (TcpHdr TcpSeq SegMap merge trimFront)
open Netstar.Spec.Preprocessor
open Netstar.Spec.Preprocessor.TcpReorderPpr

/-- The bytes of a frame. -/
abbrev Frame := Netstar.Spec.Net.Packet

/-! ### Runs -/

/-- The frame that the hook passes on as TCP. -/
def admits (raw : Frame) : Option Frame :=
  (recvFunc raw).bind fun p => if p.l4 = .tcp then some p.pkt else none

/-- What happens to a flow: a frame arrives at the hook, the data is read, the timer expires. -/
inductive Label where
  | send (raw : Frame)
  | read
  | expire
  deriving DecidableEq, Repr

/-- There is no next state when the program has stopped. -/
def step (s : TcpReorderPpr) : Label → Option TcpReorderPpr
  | .send raw =>
    match admits raw with
    | none => some s
    | some frame =>
      match s.handlePacketSend frame with
      | .ok (t, _) => some t
      | .error _ => none
  | .read => some s.readReorderingBuffer.2
  | .expire => some { s with tArmed := false }

/-- The packet gets to the reconstruction block. -/
def Followed (s : TcpReorderPpr) (h : TcpHdr) : Prop :=
  s.abnormalDetected = false ∧ (s.seenSyn = true ∨ h.fSyn = true)

/-- `header_length`. -/
def headerLength (h : TcpHdr) (off : Nat) : Nat := off + h.dataOffset * 4

/-- `seg_len`, an `unsigned`. -/
def segLen (frame : Frame) (h : TcpHdr) (off : Nat) : Nat :=
  (frame.length + 2 ^ 32 - headerLength h off) % 2 ^ 32

/-- No header is missing, no assertion fails, and `seg_len` is the difference it stands for. -/
structure SafeOn (s : TcpReorderPpr) (frame : Frame) : Prop where
  returns : ∃ r, s.handlePacketSend frame = .ok r
  segLen : ∀ h off, readHeaders frame = .ok (h, off) → Followed s h →
    (segLen frame h off : Int) = frame.length - headerLength h off

/-- A packet that is followed holds all of its headers. -/
def HeadersFit (s : TcpReorderPpr) (frame : Frame) : Prop :=
  ∀ h off, readHeaders frame = .ok (h, off) → Followed s h → headerLength h off ≤ frame.length

/-- A condition on the frames that the hook passes on. -/
def OnAdmitted (P : TcpReorderPpr → Frame → Prop) (s : TcpReorderPpr) (l : Label) : Prop :=
  ∀ raw frame, l = .send raw → admits raw = some frame → P s frame

/-! ### What the hook has checked -/

/-- A frame that the hook passes on has the headers that the preprocessor reads, and it is not longer
than an IP datagram. -/
theorem readHeaders_of_admits {raw frame : Frame} (h : admits raw = some frame) :
    frame.length ≤ maxFrameLen ∧ ∃ hdr off, readHeaders frame = .ok (hdr, off) := by
  obtain ⟨p, hp, htcp⟩ := Option.bind_eq_some_iff.mp h
  split at htcp
  next hl4 =>
    cases htcp
    have hspec := recvFunc_spec hp
    have hlen := hspec.length
    have hdr : transportOffset raw + 20 ≤ p.pkt.length := by
      have htransport := hspec.transport
      rw [hl4] at htransport
      exact htransport
    have hoff : 14 ≤ transportOffset raw := Nat.le_add_right _ _
    -- The total length is a number of two bytes.
    have htotal : (ipHeader raw).len < 2 ^ 16 := by
      show Netstar.Lib.LittleEndian.decode _ < 2 ^ 16
      refine lt_of_lt_of_eq (Netstar.Lib.LittleEndian.decode_lt _) ?_
      simp [Netstar.Lib.LittleEndian.length_encode]
    -- Both read the header length from the byte behind the Ethernet header.
    have hbyte : transportOffset raw = 14 + (p.pkt.getD 14 0).toNat % 16 * 4 := by
      show 14 + (((raw.drop 14).take 20).getD 0 0).toNat % 16 * 4 = _
      rw [hspec.pkt]
      simp only [List.getD_eq_getElem?_getD]
      rw [List.getElem?_take_of_lt (by omega), List.getElem?_take_of_lt (by omega),
        List.getElem?_drop]
    constructor
    · show p.pkt.length ≤ 14 + 65535
      rw [hlen]
      show 14 + _ ≤ _
      omega
    · refine ⟨TcpHdr.read (p.pkt.drop (14 + (p.pkt.getD 14 0).toNat % 16 * 4)),
        14 + (p.pkt.getD 14 0).toNat % 16 * 4, ?_⟩
      show (if 34 ≤ p.pkt.length then
        (if 14 + (p.pkt.getD 14 0).toNat % 16 * 4 + 20 ≤ p.pkt.length then _ else _) else _) = _
      rw [if_pos (by omega), if_pos (by rw [← hbyte]; exact hdr)]
      rfl
  next => cases htcp

/-! ### Bytes do not matter -/

/-- The same flow with zero bytes. -/
def erase (s : TcpReorderPpr) : TcpReorderPpr :=
  { s with
    rcvData := s.rcvData.map (List.map fun _ => 0)
    rcvOutOfOrder := mapBytes (fun _ => 0) s.rcvOutOfOrder }

/-- Zero bytes agree with the stream of zeros wherever they lie. -/
theorem agrees_zero (b : Int) (p : Frame) :
    Agrees (fun _ => 0) (b, p.map fun _ => (0 : UInt8)) := by
  show p.map (fun _ => 0) = (List.range (p.map fun _ => (0 : UInt8)).length).map fun _ => 0
  rw [List.length_map, List.map_const', List.map_const', List.length_range]

/-- Trimming the front does not look at the bytes. -/
theorem trimFrontIf_map (g : UInt8 → UInt8) (p : Frame) (k : Int) :
    trimFrontIf (p.map g) k = (trimFrontIf p k).map (List.map g) := by
  rw [trimFrontIf, trimFrontIf]
  split
  · exact trimFront_map g p k
  · rfl

/-- Merging the segments does not look at the bytes. -/
theorem mergeOutOfOrderLoop_map (g : UInt8 → UInt8) (m : SegMap TcpSeq) (next : TcpSeq)
    (data : List Frame) :
    mergeOutOfOrderLoop next (data.map (List.map g)) (mapBytes g m) =
      (mergeOutOfOrderLoop next data m).map fun r => (r.1, r.2.1.map (List.map g), mapBytes g r.2.2) := by
  induction m generalizing next data with
  | nil => rfl
  | cons e rest ih =>
    obtain ⟨segBeg, p⟩ := e
    simp only [mapBytes_cons, mergeOutOfOrderLoop, List.length_map, trimFrontIf_map]
    split
    · cases trimFrontIf p _ with
      | error e => rfl
      | ok q =>
        show mergeOutOfOrderLoop _ (data.map (List.map g) ++ [q.map g]) _ =
          Except.map _ (mergeOutOfOrderLoop _ (data ++ [q]) rest)
        rw [← ih, List.map_append, List.map_singleton]
    · split
      · exact ih next data
      · rfl

/-- `acceptSegment` on the same flow with zero bytes. -/
theorem acceptSegment_erase (s : TcpReorderPpr) (h : TcpHdr) (segSeq : TcpSeq) (p : Frame) :
    (erase s).acceptSegment h segSeq (p.map fun _ => 0) =
      (s.acceptSegment h segSeq p).map fun r => (erase r.1, r.2) := by
  have hnext : (erase s).rcvNext = s.rcvNext := rfl
  simp only [acceptSegment, hnext, List.length_map]
  split
  · have hmerge := merge_map (fun _ => 0) s.rcvOutOfOrder segSeq p
    simp only [insertOutOfOrder, erase, hmerge]
    cases merge s.rcvOutOfOrder segSeq p with
    | error e => rfl
    | ok m =>
      show Except.ok _ = Except.ok _
      simp only [rearm_eq]
  split
  · rfl
  split
  · have hloop := mergeOutOfOrderLoop_map (fun _ => 0) s.rcvOutOfOrder (s.rcvNext.add p.length)
      (s.rcvData ++ [p])
    rw [List.map_append, List.map_singleton] at hloop
    simp only [mergeOutOfOrder, erase, hloop]
    cases mergeOutOfOrderLoop (s.rcvNext.add p.length) (s.rcvData ++ [p]) s.rcvOutOfOrder with
    | error e => rfl
    | ok r =>
      show Except.ok _ = Except.ok _
      simp only [rearm_eq]
  · simp only [rearm_eq]
    rfl

/-! ### The states of a run -/

/-- The states that a flow can be in. -/
inductive Sound (s : TcpReorderPpr) : Prop where
  | abnormal (h : s.abnormalDetected = true)
  /-- No packet was followed yet. -/
  | fresh (hnormal : s.abnormalDetected = false) (hsyn : s.seenSyn = false)
      (hwindow : s.rcvWindow = window) (hmap : s.rcvOutOfOrder = [])
  | tracks (isn : BitVec 32) (n : Nat) (m : SegMap Int)
      (h : Tracks (fun _ => 0) isn n (erase s) m)

/-- Every sequence number is the number of a position near `n`. -/
theorem exists_position (base : BitVec 32) (n : Int) (q : TcpSeq) :
    ∃ pos, q = wrap base pos ∧ -2 ^ 31 ≤ pos - n ∧ pos - n < 2 ^ 31 := by
  refine ⟨n + q.sub (wrap base n), ?_, ?_⟩
  · show q = ⟨base + BitVec.ofInt 32 (n + (q.raw - (base + BitVec.ofInt 32 n)).toInt)⟩
    have hback : BitVec.ofInt 32 (q.raw - (base + BitVec.ofInt 32 n)).toInt =
        q.raw - (base + BitVec.ofInt 32 n) := BitVec.ofInt_toInt
    rw [BitVec.ofInt_add, hback]
    cases q
    congr 1
    bv_omega
  · have hlo := BitVec.le_toInt (q.raw - (wrap base n).raw)
    have hhi := BitVec.toInt_lt (x := q.raw - (wrap base n).raw)
    have hdiff : n + q.sub (wrap base n) - n = (q.raw - (wrap base n).raw).toInt := by
      rw [TcpSeq.sub]
      omega
    rw [hdiff]
    omega

/-- The place of an acceptable segment. There is no other assumption on its sequence number. -/
theorem position_of_acceptable {s : TcpReorderPpr} {base : BitVec 32} {n : Nat} {q : TcpSeq}
    {len : Nat} (hnext : s.rcvNext = wrap base n) (hwindow : s.rcvWindow = window)
    (hacc : s.segmentAcceptable q len = true) :
    ∃ pos : Int, q = wrap base pos ∧ ((n ≤ pos ∧ pos < n + window) ∨
      (0 < len ∧ n ≤ pos + len - 1 ∧ pos + len - 1 < n + window)) := by
  -- A number that passes both comparisons is the number of a position in the window.
  have hplace : ∀ q : TcpSeq, ((wrap base n).le q && q.lt (wrap base (n + window))) = true →
      ∃ pos : Int, q = wrap base pos ∧ n ≤ pos ∧ pos < n + window := by
    intro q hq
    obtain ⟨pos, rfl, hlo, hhi⟩ := exists_position base n q
    rw [Bool.and_eq_true, le_wrap _ _ _ hlo hhi, decide_eq_true_eq] at hq
    obtain ⟨hle, hlt⟩ := hq
    rw [lt_wrap _ _ _ (by simp only [window]; omega) (by simp only [window]; omega),
      decide_eq_true_eq] at hlt
    exact ⟨pos, rfl, hle, hlt⟩
  simp only [segmentAcceptable, hnext, hwindow, add_wrap _ (n : Int)] at hacc
  rw [if_neg (by simp [window])] at hacc
  split at hacc
  · obtain ⟨pos, hpos, hin⟩ := hplace q hacc
    exact ⟨pos, hpos, .inl hin⟩
  · split at hacc
    next hpositive =>
      rcases Bool.or_eq_true _ _ |>.mp hacc with hfirst | hlast
      · obtain ⟨pos, hpos, hin⟩ := hplace q hfirst
        exact ⟨pos, hpos, .inl hin⟩
      · obtain ⟨last, hpos, hin⟩ := hplace _ hlast
        obtain ⟨pos, rfl, -⟩ := exists_position base n q
        have hsame := congrArg (fun r => TcpSeq.add r (1 - len)) hpos
        simp only [add_wrap] at hsame
        have hpos' : pos + len + -1 + (1 - len) = pos := by omega
        rw [hpos'] at hsame
        exact ⟨last + (1 - len), hsame, .inr ⟨hpositive.1, by omega⟩⟩
    next => cases hacc

/-- A packet whose headers fit, in a flow that was followed before. -/
theorem reconstruct_tracks {s : TcpReorderPpr} {isn : BitVec 32} {n : Nat} {m : SegMap Int}
    (h : Tracks (fun _ => 0) isn n (erase s) m) {frame : Frame} {hdr : TcpHdr} {off : Nat}
    (hshort : frame.length ≤ maxFrameLen) (hfits : headerLength hdr off ≤ frame.length)
    (hoff : 14 ≤ off) :
    ∃ s' ge n' m', s.reconstruct hdr off frame = .ok (s', ge) ∧
      Tracks (fun _ => 0) isn n' (erase s') m' := by
  have hnext : s.rcvNext = wrap (isn + 1) n := h.next
  have hlen : (frame.drop (off + hdr.dataOffset * 4)).length < 2 ^ 16 := by
    rw [List.length_drop]
    have hmax : maxFrameLen = 14 + 65535 := rfl
    omega
  by_cases hacc : s.segmentAcceptable hdr.seq (frame.drop (off + hdr.dataOffset * 4)).length = true
  · obtain ⟨pos, hseq, hbounds⟩ := position_of_acceptable hnext h.windowEq hacc
    rw [reconstruct_of_acceptable hnext hfits hlen hseq hacc (hbounds.imp_right And.right)]
    generalize (frame.drop (off + hdr.dataOffset * 4)) = p at hlen hbounds
    -- What the flow with zero bytes does, the flow does.
    have hback : ∀ (q : Frame) (pos' : Int) (z' : TcpReorderPpr) (ge : GeneratedEvents) (n' : Nat)
        (m' : SegMap Int),
        (erase s).acceptSegment hdr (wrap (isn + 1) pos') (q.map fun _ => 0) = .ok (z', ge) →
        Tracks (fun _ => 0) isn n' z' m' →
        ∃ s' ge n' m', s.acceptSegment hdr (wrap (isn + 1) pos') q = .ok (s', ge) ∧
          Tracks (fun _ => 0) isn n' (erase s') m' := by
      intro q pos' z' ge n' m' hz htracks
      rw [acceptSegment_erase] at hz
      obtain ⟨⟨s', ge'⟩, hs', hpair⟩ := map_eq_ok.mp hz
      cases hpair
      exact ⟨s', ge', n', m', hs', htracks⟩
    by_cases hold : pos ≤ n
    · have hmax : max pos (n : Int) = n := by omega
      rw [hmax]
      by_cases hrst : hdr.fRst = true
      · -- A reset at the next expected byte only stops the timer.
        refine ⟨{ s with tArmed := false }, (events [.pktIn]).closeEventHappen, n, m, ?_, h.normal,
          h.seenSyn, h.windowEq, h.initial, h.next, h.map, h.separated, h.agrees, h.bounds⟩
        simp only [acceptSegment, hnext, ne_eq, not_true_eq_false, if_false, hrst, if_true]
      · obtain ⟨z', m', n', ge, hz, hadv, -⟩ := acceptSegment_inOrder h hdr
          (Bool.eq_false_iff.mpr hrst) (p := (p.drop ((n : Int) - pos).toNat).map fun _ => 0)
          (by rw [List.length_map, List.length_drop]; omega) (agrees_zero _ _)
        exact hback _ _ z' ge n' m' hz hadv.tracks
    · have hmax : max pos (n : Int) = pos := by omega
      have hzero : ((n : Int) - pos).toNat = 0 := by omega
      rw [hmax, hzero, List.drop_zero]
      obtain ⟨z', m', hz, hadv⟩ := acceptSegment_outOfOrder h hdr (p := p.map fun _ => 0)
        (show (n : Int) < pos by omega) (by omega) (by rw [List.length_map]; omega)
        (agrees_zero _ _)
      exact hback _ _ z' _ n m' hz hadv.tracks
  · exact ⟨s, _, n, m, reconstruct_of_not_acceptable hfits hlen hacc, h⟩

/-- `handle_packet_send` either ignores the flow, or it is the reconstruction block in a flow that was
followed before. -/
theorem Sound.handlePacketSend_eq {s : TcpReorderPpr} (hs : Sound s) {frame : Frame} {hdr : TcpHdr}
    {off : Nat} (hhead : readHeaders frame = .ok (hdr, off)) :
    (¬Followed s hdr ∧ ∃ s' ge, s.handlePacketSend frame = .ok (s', ge) ∧ Sound s') ∨
      (Followed s hdr ∧ ∃ t isn n m, s.handlePacketSend frame = t.reconstruct hdr off frame ∧
        Tracks (fun _ => 0) isn n (erase t) m) := by
  cases hs with
  | abnormal h =>
    refine .inl ⟨fun hf => ?_, s, events [.abnormalConnection, .pktIn], ?_, .abnormal h⟩
    · rw [Followed, h] at hf
      exact absurd hf.1 (by decide)
    · simp only [TcpReorderPpr.handlePacketSend, h, if_true, rearm_eq]
  | fresh hnormal hsyn hwindow hmap =>
    by_cases hflag : hdr.fSyn = true
    · -- The first SYN. Its number stands before the first byte.
      refine .inr ⟨⟨hnormal, .inr hflag⟩,
        { s with seenSyn := true, rcvNext := hdr.seq.add 1, rcvInitial := hdr.seq },
        hdr.seq.raw, 0, [], ?_, hnormal, rfl, hwindow, rfl, ?_, ?_, List.Pairwise.nil, by simp,
        by simp⟩
      · simp only [TcpReorderPpr.handlePacketSend, hnormal, Bool.false_eq_true, if_false, hhead, bind,
          Except.bind, hflag, hsyn, Bool.not_true, Bool.false_and, Bool.not_false, Bool.and_self,
          if_true]
      · show hdr.seq.add 1 = wrap (hdr.seq.raw + 1) 0
        simp [TcpSeq.add, wrap]
      · show mapBytes _ s.rcvOutOfOrder = _
        rw [hmap]
        rfl
    · rw [Bool.not_eq_true] at hflag
      refine .inl ⟨fun hf => ?_, { s with abnormalDetected := true, rcvOutOfOrder := [] },
        events [.abnormalConnection, .pktIn], ?_, .abnormal rfl⟩
      · rw [Followed, hsyn, hflag] at hf
        exact absurd hf.2 (by decide)
      · simp only [TcpReorderPpr.handlePacketSend, hnormal, Bool.false_eq_true, if_false, hhead, bind,
          Except.bind, hflag, hsyn, Bool.not_false, Bool.and_self, if_true, rearm_eq]
        rfl
  | tracks isn n m h =>
    exact .inr ⟨⟨h.normal, .inl h.seenSyn⟩, s, isn, n, m,
      handlePacketSend_eq_reconstruct (s := s) h.normal h.seenSyn hhead, h⟩

/-- When the headers do not fit, `trim_front` would fail. So a call that returns has ignored the packet. -/
theorem reconstruct_of_not_fits {s s' : TcpReorderPpr} {frame : Frame} {hdr : TcpHdr} {off : Nat}
    {ge : GeneratedEvents} (hfits : ¬headerLength hdr off ≤ frame.length)
    (hrun : s.reconstruct hdr off frame = .ok (s', ge)) : s' = s := by
  have htrim : trimFront frame (off + hdr.dataOffset * 4 : Nat) = .error .trimAssert := by
    rw [trimFront, if_neg]
    show ¬(0 ≤ ((headerLength hdr off : Nat) : Int) ∧ ((headerLength hdr off : Nat) : Int) ≤ _)
    omega
  simp only [reconstruct, htrim] at hrun
  split at hrun
  · cases hrun
  · rw [rearm_eq] at hrun
    cases hrun
    rfl

/-- A packet whose headers fit is handled. -/
theorem Sound.returns {s : TcpReorderPpr} (hs : Sound s) {raw frame : Frame}
    (hraw : admits raw = some frame) (hfit : HeadersFit s frame) :
    ∃ r, s.handlePacketSend frame = .ok r := by
  obtain ⟨hshort, hdr, off, hhead⟩ := readHeaders_of_admits hraw
  rcases hs.handlePacketSend_eq hhead with ⟨-, s', ge, hrun, -⟩ | ⟨hfollowed, t, isn, n, m, heq, h⟩
  · exact ⟨_, hrun⟩
  · obtain ⟨s', ge, n', m', hrun, -⟩ := reconstruct_tracks h hshort (hfit hdr off hhead hfollowed)
      (ethHdrLen_le_of_readHeaders hhead)
    exact ⟨_, heq.trans hrun⟩

/-- Every call that returns keeps the invariant. -/
theorem Sound.handlePacketSend {s s' : TcpReorderPpr} (hs : Sound s) {raw frame : Frame}
    {ge : GeneratedEvents} (hraw : admits raw = some frame)
    (hrun : s.handlePacketSend frame = .ok (s', ge)) : Sound s' := by
  obtain ⟨hshort, hdr, off, hhead⟩ := readHeaders_of_admits hraw
  rcases hs.handlePacketSend_eq hhead with ⟨-, s₁, ge₁, hrun₁, hs₁⟩ | ⟨-, t, isn, n, m, heq, h⟩
  · rw [hrun₁] at hrun
    cases hrun
    exact hs₁
  · rw [heq] at hrun
    by_cases hfits : headerLength hdr off ≤ frame.length
    · obtain ⟨s₁, ge₁, n', m', hrun₁, h'⟩ := reconstruct_tracks h hshort hfits
        (ethHdrLen_le_of_readHeaders hhead)
      rw [hrun₁] at hrun
      cases hrun
      exact .tracks isn n' m' h'
    · rw [reconstruct_of_not_fits hfits hrun]
      exact .tracks isn n m h

/-- Every step keeps the preprocessor sound. -/
theorem Sound.step {s t : TcpReorderPpr} (hs : Sound s) {l : Label} (h : step s l = some t) :
    Sound t := by
  cases l with
  | send raw =>
    rw [Preprocessor.step] at h
    split at h
    next =>
      cases h
      exact hs
    next frame hraw =>
      split at h
      next t' ge hrun =>
        cases h
        exact hs.handlePacketSend hraw hrun
      next => cases h
  | read =>
    cases h
    cases hs with
    | abnormal h => exact .abnormal h
    | fresh hnormal hsyn hwindow hmap => exact .fresh hnormal hsyn hwindow hmap
    | tracks isn n m h =>
      exact .tracks isn n m ⟨h.normal, h.seenSyn, h.windowEq, h.initial, h.next, h.map, h.separated,
        h.agrees, h.bounds⟩
  | expire =>
    cases h
    cases hs with
    | abnormal h => exact .abnormal h
    | fresh hnormal hsyn hwindow hmap => exact .fresh hnormal hsyn hwindow hmap
    | tracks isn n m h =>
      exact .tracks isn n m ⟨h.normal, h.seenSyn, h.windowEq, h.initial, h.next, h.map, h.separated,
        h.agrees, h.bounds⟩

/-! ### When the preprocessor is safe -/

/-- `segLen` is the difference it stands for if and only if the headers fit. -/
theorem segLen_eq_iff {frame : Frame} {h : TcpHdr} {off : Nat} (hshort : frame.length ≤ maxFrameLen) :
    (segLen frame h off : Int) = frame.length - headerLength h off ↔
      headerLength h off ≤ frame.length := by
  have hmax : maxFrameLen = 14 + 65535 := rfl
  constructor
  · intro heq
    have hpos := Int.natCast_nonneg (segLen frame h off)
    omega
  · intro hfits
    rw [segLen, segLen_eq hfits (by omega)]
    omega

/-- A sound preprocessor takes an admitted frame exactly when its headers fit. -/
theorem Sound.safeOn_iff {s : TcpReorderPpr} (hs : Sound s) {raw frame : Frame}
    (hraw : admits raw = some frame) : SafeOn s frame ↔ HeadersFit s frame := by
  have hshort := (readHeaders_of_admits hraw).1
  constructor
  · intro hsafe h off hhead hfollowed
    exact (segLen_eq_iff hshort).mp (hsafe.segLen h off hhead hfollowed)
  · intro hfit
    exact ⟨hs.returns hraw hfit, fun h off hhead hfollowed =>
      (segLen_eq_iff hshort).mpr (hfit h off hhead hfollowed)⟩

/-- In every run, a call of `handle_packet_send` is safe if and only if the packet holds all headers that
it announces, or the flow is not followed. -/
theorem handlePacketSend_safe_iff (next initial : TcpSeq) (ls : List Label) :
    Meets step (OnAdmitted SafeOn) (create next initial) ls ↔
      Meets step (OnAdmitted HeadersFit) (create next initial) ls := by
  refine meets_congr Sound (fun s l t hs h => hs.step h) (fun s l hs => ?_)
    (.fresh rfl rfl rfl rfl) ls
  constructor
  · intro h raw frame hl hraw
    exact (hs.safeOn_iff hraw).mp (h raw frame hl hraw)
  · intro h raw frame hl hraw
    exact (hs.safeOn_iff hraw).mpr (h raw frame hl hraw)

/-- A frame with this data offset, flag byte and low byte of the sequence number, and no data. -/
def tcpFrame (dataOffset flags seq : UInt8) : Frame :=
  List.replicate 12 0 ++ [8, 0] ++
    [69, 0, 0, 40, 0, 0, 0, 0, 64, 6, 0, 0, 10, 0, 0, 1, 10, 0, 0, 2] ++
    [0, 1, 0, 2, 0, 0, 0, seq, 0, 0, 0, 0, dataOffset * 16, flags, 0, 0, 0, 0, 0, 0]

/-- The hook passes on a frame whose data offset points 40 bytes behind its end. After a SYN, the next
frame of that kind stops the program. -/
theorem not_handlePacketSend_safe_data_offset :
    admits (tcpFrame 15 16 8) = some (tcpFrame 15 16 8) ∧
      (∃ s, run step (create ⟨0⟩ ⟨0⟩) [.send (tcpFrame 5 2 7)] = some s ∧
        s.handlePacketSend (tcpFrame 15 16 8) = .error (.merger .trimAssert)) ∧
      ¬Meets step (OnAdmitted SafeOn) (create ⟨0⟩ ⟨0⟩)
        [.send (tcpFrame 5 2 7), .send (tcpFrame 15 16 8)] := by
  have hadmits : admits (tcpFrame 15 16 8) = some (tcpFrame 15 16 8) := by decide
  obtain ⟨s, hs, herror⟩ : ∃ s, step (create ⟨0⟩ ⟨0⟩) (.send (tcpFrame 5 2 7)) = some s ∧
      s.handlePacketSend (tcpFrame 15 16 8) = .error (.merger .trimAssert) := ⟨_, rfl, rfl⟩
  refine ⟨hadmits, ⟨s, ?_, herror⟩, fun h => ?_⟩
  · rw [run, hs]
    rfl
  · obtain ⟨hsafe, -⟩ := h.2 s hs
    obtain ⟨r, hr⟩ := (hsafe _ _ rfl hadmits).returns
    rw [herror] at hr
    cases hr

end Netstar.Proofs.Preprocessor
