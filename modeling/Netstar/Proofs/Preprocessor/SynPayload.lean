import Netstar.Proofs.Preprocessor.TcpReorder

/-!
# `Netstar.Proofs.Preprocessor.SynPayload`: a SYN that carries data

The SYN takes one sequence number. So the first byte of its payload has the number `isn + 1`, which
is position 0 of the stream, while `seg_seq` is `isn`. `handle_packet_send` reads the segment like
any other: it counts the payload from `seg_seq` on, so the first byte seems to stand before
`_rcv_next` and is cut off as a duplicate. A payload of one byte is then empty in the window, and
the whole segment is ignored. A longer one loses its first byte, and the rest is taken as the start
of the stream.

`SynFlow f isn syn s out` is a run that starts with the SYN `syn` and goes on with segments of the
stream `f`. `KeepsSyn` is what a reader of the stream expects of all these runs.
-/

set_option autoImplicit false

namespace Netstar.Proofs.Preprocessor

open Netstar.Lib
open Netstar.Spec.AsyncFlow
open Netstar.Spec.Net
open Netstar.Spec.Preprocessor
open Netstar.Spec.Preprocessor.TcpReorderPpr
open Netstar.Proofs.Net

/-- The payload of a frame with the header `h`, whose TCP header starts at `off`. -/
def payloadOf (h : TcpHdr) (off : Nat) (frame : List UInt8) : Packet :=
  frame.drop (off + h.dataOffset * 4)

/-- The frame is a SYN with the sequence number `isn`, and its payload is a non-empty front of the
stream `f`. -/
structure SynDataFrame (f : Int → UInt8) (isn : BitVec 32) (frame : List UInt8) (h : TcpHdr)
    (off : Nat) : Prop where
  headers : readHeaders frame = .ok (h, off)
  syn : h.fSyn = true
  seq : h.seq = ⟨isn⟩
  carries : off + h.dataOffset * 4 < frame.length
  short : frame.length ≤ maxFrameLen
  payload : Agrees f (0, payloadOf h off frame)

/-- A run of the preprocessor that starts with the SYN `syn`. It reaches the state `s`, and the bytes
`out` were read from it so far. -/
inductive SynFlow (f : Int → UInt8) (isn : BitVec 32) (syn : List UInt8) :
    TcpReorderPpr → List UInt8 → Prop
  /-- The first packet. -/
  | syn (next initial : TcpSeq) {s : TcpReorderPpr} {ge : GeneratedEvents} :
      (create next initial).handlePacketSend syn = .ok (s, ge) → SynFlow f isn syn s []
  /-- A later segment of the stream. -/
  | segment {s s' : TcpReorderPpr} {out frame : List UInt8} {h : TcpHdr} {off : Nat} {pos : Int}
      {ge : GeneratedEvents} :
      SynFlow f isn syn s out →
      SegmentAt f isn (out ++ s.rcvData.flatten).length frame h off pos →
      s.handlePacketSend frame = .ok (s', ge) → SynFlow f isn syn s' out
  /-- A call of `read_reordering_buffer`. -/
  | read {s : TcpReorderPpr} {out : List UInt8} :
      SynFlow f isn syn s out →
      SynFlow f isn syn s.readReorderingBuffer.2 (out ++ s.readReorderingBuffer.1)

/-- The reconstructed stream is right in the state `s`: its byte at offset `i` is the byte of the
stream with the sequence number `isn + 1 + i`, the next expected number is the one of its end, the
bytes that arrived early are kept at their own numbers, and a segment that holds the next expected
byte is taken to its end. -/
structure StreamKept (f : Int → UInt8) (isn : BitVec 32) (s : TcpReorderPpr) (out : List UInt8) :
    Prop where
  bytes : out ++ s.rcvData.flatten = slice f 0 (out ++ s.rcvData.flatten).length
  next : s.rcvNext = wrap (isn + 1) (out ++ s.rcvData.flatten).length
  early : ∀ e ∈ s.rcvOutOfOrder, ∃ pos : Int, (out ++ s.rcvData.flatten).length < pos ∧
    e.1 = wrap (isn + 1) pos ∧ e.2 = slice f pos e.2.length
  taken : ∀ frame h off pos, SegmentAt f isn (out ++ s.rcvData.flatten).length frame h off pos →
    ∃ s' ge, s.handlePacketSend frame = .ok (s', ge) ∧
      (pos ≤ (out ++ s.rcvData.flatten).length →
        pos + (payloadOf h off frame).length ≤ (out ++ s'.rcvData.flatten).length)

/-- The SYN is processed, and its payload is taken as a whole or ignored as a whole. After that the
reconstructed stream is right in every state of every run. -/
def KeepsSyn (f : Int → UInt8) (isn : BitVec 32) (syn : List UInt8) (payload : Packet) : Prop :=
  (∀ next initial, ∃ s ge, (create next initial).handlePacketSend syn = .ok (s, ge) ∧
    (s.rcvData.flatten = payload ∨ s.rcvData.flatten = [])) ∧
  ∀ s out, SynFlow f isn syn s out → StreamKept f isn s out

/-! ### The first packet -/

/-- The state once the SYN was seen. -/
def synSeen (next initial : TcpSeq) (isn : BitVec 32) : TcpReorderPpr :=
  { create next initial with
      seenSyn := true, rcvNext := wrap (isn + 1) 0, rcvInitial := ⟨isn⟩ }

/-- After the SYN the preprocessor tracks an empty stream. -/
theorem tracks_synSeen (f : Int → UInt8) (isn : BitVec 32) (next initial : TcpSeq) :
    Tracks f isn 0 (synSeen next initial isn) [] :=
  ⟨rfl, rfl, rfl, rfl, rfl, rfl, List.Pairwise.nil, by simp, by simp⟩

section
variable {f : Int → UInt8} {isn : BitVec 32} {frame : List UInt8} {h : TcpHdr} {off : Nat}
  {next initial : TcpSeq}

/-- The SYN's own number is one before the stream's first. -/
theorem seq_eq_wrap_pred (isn : BitVec 32) : (⟨isn⟩ : TcpSeq) = wrap (isn + 1) (-1) := by
  simp only [wrap, TcpSeq.mk.injEq]
  bv_omega

/-- The first SYN goes to the reconstruction block. -/
theorem handlePacketSend_first (hsyn : SynDataFrame f isn frame h off) :
    (create next initial).handlePacketSend frame
      = (synSeen next initial isn).reconstruct h off frame := by
  have hzero : h.seq.add 1 = wrap (isn + 1) 0 := by
    rw [hsyn.seq]
    simp [TcpSeq.add, wrap]
  simp only [handlePacketSend, create, Bool.false_eq_true, if_false, hsyn.headers, bind,
    Except.bind, hsyn.syn, Bool.not_true, Bool.false_and, Bool.not_false, Bool.and_self, if_true,
    hzero, synSeen]
  rw [hsyn.seq]

/-- A payload on the SYN is not empty, fits 16 bits, and is what the lengths of the headers leave.
-/
theorem SynDataFrame.length (hsyn : SynDataFrame f isn frame h off) :
    0 < (payloadOf h off frame).length ∧ (payloadOf h off frame).length < 2 ^ 16 ∧
      (frame.length + 2 ^ 32 - (off + h.dataOffset * 4)) % 2 ^ 32
        = (payloadOf h off frame).length := by
  have hoff := ethHdrLen_le_of_readHeaders hsyn.headers
  have hcarries := hsyn.carries
  have hshort := hsyn.short
  unfold maxFrameLen at hshort
  rw [payloadOf, List.length_drop]
  exact ⟨by omega, by omega, segLen_eq (by omega) (by omega)⟩

/-- The last byte of the payload seems to stand at position `length - 2`, so only a payload of two
bytes or more reaches the window. -/
theorem segmentAcceptable_syn {len : Nat} (hpos : 0 < len) (hlen : len < 2 ^ 16) :
    (synSeen next initial isn).segmentAcceptable (wrap (isn + 1) (-1)) len = decide (2 ≤ len) := by
  have hlast : ((wrap (isn + 1) (-1)).add len).add (-1) = wrap (isn + 1) (len - 2) := by
    rw [add_wrap, add_wrap]
    congr 1
    omega
  have hle : ∀ x : Int, -2 < x → x < 2 ^ 16 →
      ((wrap (isn + 1) 0).le (wrap (isn + 1) x) &&
        (wrap (isn + 1) x).lt ((wrap (isn + 1) 0).add window)) = decide (0 ≤ x) := by
    intro x hlo hhi
    rw [add_wrap, le_wrap _ _ _ (by omega) (by omega),
      lt_wrap _ _ _ (by simp only [window]; omega) (by simp only [window]; omega)]
    rw [← Bool.decide_and]
    exact decide_eq_decide.mpr ⟨And.left, fun h => ⟨h, by simp only [window]; omega⟩⟩
  show (if len = 0 ∧ window = 0 then _ else if len = 0 ∧ 0 < window then _ else
    if 0 < len ∧ 0 < window then ((wrap (isn + 1) 0).le _ && TcpSeq.lt _ _) ||
      ((wrap (isn + 1) 0).le _ && TcpSeq.lt _ _) else _) = _
  rw [if_neg (by omega), if_neg (by omega), if_pos ⟨hpos, by decide⟩, hlast]
  show (((wrap (isn + 1) 0).le (wrap (isn + 1) (-1)) && TcpSeq.lt _
    ((wrap (isn + 1) 0).add window)) || ((wrap (isn + 1) 0).le (wrap (isn + 1) (len - 2)) &&
      TcpSeq.lt _ ((wrap (isn + 1) 0).add window))) = _
  rw [hle _ (by omega) (by omega), hle _ (by omega) (by omega)]
  rw [← Bool.decide_or]
  exact decide_eq_decide.mpr (by omega)

/-- A payload of one byte is ignored. -/
theorem handlePacketSend_one (hsyn : SynDataFrame f isn frame h off)
    (hone : (payloadOf h off frame).length = 1) :
    (create next initial).handlePacketSend frame
      = .ok (synSeen next initial isn, events [.pktIn]) := by
  rw [handlePacketSend_first hsyn]
  simp only [reconstruct, hsyn.length.2.2, hone]
  rw [hsyn.seq, seq_eq_wrap_pred, segmentAcceptable_syn (by omega) (by omega), rearm_eq]
  rfl

/-- A longer payload loses its first byte, and the rest is accepted at the next expected number. -/
theorem handlePacketSend_longer (hsyn : SynDataFrame f isn frame h off)
    (htwo : 2 ≤ (payloadOf h off frame).length) :
    (create next initial).handlePacketSend frame
      = (synSeen next initial isn).acceptSegment h (wrap (isn + 1) 0)
          ((payloadOf h off frame).drop 1) := by
  obtain ⟨-, hlen, hseg⟩ := hsyn.length
  have hcarries := hsyn.carries
  rw [handlePacketSend_first hsyn]
  simp only [reconstruct, hseg]
  rw [hsyn.seq, seq_eq_wrap_pred, segmentAcceptable_syn (by omega) hlen, decide_eq_true htwo,
    if_pos rfl, trimFront_ok frame _ (by omega) (by omega)]
  show (if (payloadOf h off frame).length ≠ _ then _ else _) = _
  have hold : (wrap (isn + 1) (-1)).lt (synSeen next initial isn).rcvNext = true := by
    show (wrap (isn + 1) (-1)).lt (wrap (isn + 1) 0) = true
    rw [lt_wrap _ _ _ (by omega) (by omega)]
    decide
  have hdup : ((synSeen next initial isn).rcvNext.raw - (wrap (isn + 1) (-1)).raw).toNat = 1 := by
    show ((wrap (isn + 1) 0).raw - (wrap (isn + 1) (-1)).raw).toNat = 1
    rw [raw_sub_wrap]
    rfl
  have hdrop : frame.drop ((off + h.dataOffset * 4 : Nat) : Int).toNat = payloadOf h off frame := rfl
  have hmin : min 1 (payloadOf h off frame).length = 1 := Nat.min_eq_left (by omega)
  rw [if_neg (by simp), if_pos hold, hdup, hdrop, hmin, trimFront_ok _ _ (by omega) (by omega),
    add_wrap]
  rfl

/-- What the first SYN leaves: the state that expects position 0, without data, or the payload
without its first byte. -/
theorem handlePacketSend_synData (next initial : TcpSeq) (hsyn : SynDataFrame f isn frame h off) :
    ∃ s ge, (create next initial).handlePacketSend frame = .ok (s, ge) ∧
      ((payloadOf h off frame).length = 1 ∨ h.fRst = true →
        Tracks f isn 0 s [] ∧ s.rcvData = []) ∧
      (¬((payloadOf h off frame).length = 1 ∨ h.fRst = true) →
        s.rcvData = [(payloadOf h off frame).drop 1]) := by
  have htracks := tracks_synSeen f isn next initial
  by_cases hone : (payloadOf h off frame).length = 1
  · exact ⟨_, _, handlePacketSend_one hsyn hone, fun _ => ⟨htracks, rfl⟩,
      fun hnot => absurd (.inl hone) hnot⟩
  · have htwo : 2 ≤ (payloadOf h off frame).length := by
      have := hsyn.length.1
      omega
    rw [handlePacketSend_longer hsyn htwo]
    unfold acceptSegment
    rw [if_neg (by simp [synSeen])]
    by_cases hrst : h.fRst = true
    · rw [if_pos hrst]
      exact ⟨_, _, rfl, fun _ => ⟨⟨htracks.normal, htracks.seenSyn, htracks.windowEq,
        htracks.initial, htracks.next, htracks.map, htracks.separated, htracks.agrees,
        htracks.bounds⟩, rfl⟩, fun hnot => absurd (.inr hrst) hnot⟩
    · have hrest : 0 < ((payloadOf h off frame).drop 1).length := by
        rw [List.length_drop]
        omega
      rw [if_neg hrst, if_pos hrest]
      exact ⟨_, _, rfl, fun hkept => absurd hkept (by simp [hone, hrst]), fun _ => rfl⟩

end

/-! ### Runs -/

/-- The states that `Reconstructs` describes are right. -/
theorem Reconstructs.streamKept {f : Int → UInt8} {isn : BitVec 32} {s : TcpReorderPpr}
    {out : List UInt8} (hs : Reconstructs f isn s out) : StreamKept f isn s out := by
  obtain ⟨m, htracks, hgot⟩ := hs.tracks
  refine ⟨hgot, htracks.next, fun e he => (hs.outOfOrder e he).2, fun frame h off pos hseg => ?_⟩
  obtain ⟨s', m', n', ge, hrun, hadv, hend⟩ := handlePacketSend_advances htracks hseg
  refine ⟨s', ge, hrun, fun hpos => Int.le_trans (hend hpos) ?_⟩
  have hle := hadv.le
  rw [hadv.data, ← List.append_assoc, List.length_append, length_slice]
  omega

/-- A flow whose SYN's payload is kept is reconstructed. -/
theorem reconstructs_of_synFlow {f : Int → UInt8} {isn : BitVec 32} {syn out : List UInt8}
    {s : TcpReorderPpr} {h : TcpHdr} {off : Nat} (hsyn : SynDataFrame f isn syn h off)
    (hkept : (payloadOf h off syn).length = 1 ∨ h.fRst = true) (hrun : SynFlow f isn syn s out) :
    Reconstructs f isn s out := by
  induction hrun with
  | syn next initial hfirst =>
    obtain ⟨s₀, ge, hs₀, hleft⟩ := handlePacketSend_synData next initial hsyn
    obtain ⟨htracks, hdata⟩ := hleft.1 hkept
    rw [hs₀] at hfirst
    cases hfirst
    exact ⟨0, [], htracks, by simp [hdata]⟩
  | segment _ hseg hstep ih => exact ih.segment hseg hstep
  | read _ ih => exact ih.read

/-- The payload of the first SYN is kept right exactly when it has one byte, which is ignored, or
when the segment also has RST. Every longer payload loses its first byte, and the others move one
position towards the front of the stream. -/
theorem keepsSyn_iff {f : Int → UInt8} {isn : BitVec 32} {syn : List UInt8} {h : TcpHdr} {off : Nat}
    (hsyn : SynDataFrame f isn syn h off) :
    KeepsSyn f isn syn (payloadOf h off syn) ↔
      (payloadOf h off syn).length = 1 ∨ h.fRst = true := by
  constructor
  · intro hkeeps
    obtain ⟨s, ge, hs, hwhole⟩ := hkeeps.1 ⟨0⟩ ⟨0⟩
    obtain ⟨s₀, ge₀, hs₀, hleft⟩ := handlePacketSend_synData ⟨0⟩ ⟨0⟩ hsyn
    rw [hs] at hs₀
    cases hs₀
    by_contra hnot
    -- The reconstructed stream is one byte shorter than the payload, and not empty.
    have hlen := congrArg (fun data => data.flatten.length) (hleft.2 hnot)
    simp only [List.flatten_cons, List.flatten_nil, List.append_nil, List.length_drop] at hlen
    have hpos := hsyn.length.1
    rcases hwhole with hall | hnone
    · rw [hall] at hlen
      omega
    · rw [hnone, List.length_nil] at hlen
      exact hnot (.inl (by omega))
  · intro hkept
    refine ⟨fun next initial => ?_, fun s out hrun =>
      (reconstructs_of_synFlow hsyn hkept hrun).streamKept⟩
    obtain ⟨s, ge, hs, hleft⟩ := handlePacketSend_synData next initial hsyn
    exact ⟨s, ge, hs, .inr (by simp [(hleft.1 hkept).2])⟩

/-- A SYN with one byte of payload, which a later segment brings again. -/
theorem keepsSyn_one_byte :
    KeepsSyn (fun _ => 7) 0xffffffff#32 (plainFrame [0xff, 0xff, 0xff, 0xff] 0x02 [7])
      (payloadOf ⟨⟨0xffffffff#32⟩, 5, true, false⟩ 34
        (plainFrame [0xff, 0xff, 0xff, 0xff] 0x02 [7])) := by
  have hsyn : SynDataFrame (fun _ => 7) 0xffffffff#32
      (plainFrame [0xff, 0xff, 0xff, 0xff] 0x02 [7]) ⟨⟨0xffffffff#32⟩, 5, true, false⟩ 34 :=
    ⟨by decide, rfl, rfl, by decide, by decide, rfl⟩
  exact (keepsSyn_iff hsyn).mpr (.inl rfl)

/-- The stream `1, 2, 3, …`. -/
def counting (pos : Int) : UInt8 := UInt8.ofNat (pos.toNat + 1)

/-- A SYN with the payload `1, 2, 3`: the stream starts with `2, 3`. -/
theorem not_keepsSyn_three_bytes :
    ¬KeepsSyn counting 0#32 (plainFrame [0, 0, 0, 0] 0x02 [1, 2, 3]) [1, 2, 3] := by
  intro hkeeps
  have hsyn : SynDataFrame counting 0#32 (plainFrame [0, 0, 0, 0] 0x02 [1, 2, 3])
      ⟨⟨0#32⟩, 5, true, false⟩ 34 :=
    ⟨by decide, rfl, rfl, by decide, by decide, rfl⟩
  obtain ⟨s, ge, hs, hwhole⟩ := hkeeps.1 ⟨0⟩ ⟨0⟩
  obtain ⟨s₀, ge₀, hs₀, hleft⟩ := handlePacketSend_synData ⟨0⟩ ⟨0⟩ hsyn
  rw [hs] at hs₀
  cases hs₀
  rw [hleft.2 (by decide)] at hwhole
  exact absurd hwhole (by decide)

end Netstar.Proofs.Preprocessor
