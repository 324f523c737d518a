import Netstar.Spec.Preprocessor.TcpReorderPpr
import Netstar.Proofs.Net.TcpMerger

/-!
# `Netstar.Proofs.Preprocessor.TcpReorder`: the reordered stream

The stream is a function `f` from positions to bytes, and the byte at position `x` has the
sequence number `isn + 1 + x`, wrapped at `2^32`. `Tracks f isn n s` is the invariant: the
preprocessor state `s` has taken the first `n` bytes of the stream, `_rcv_next` is the number of
position `n`, and the out-of-order map is the wrapped form of a separated map of stream segments
that all start after `n`. The window keeps that map inside `2^31` positions, so
`merge_wrap` applies to it and every comparison of sequence numbers compares positions.

`ReorderRun f isn s out` says that a run reaches the state `s` and that the calls of
`read_reordering_buffer` so far returned the bytes `out`. It starts with a SYN that has no
payload. Each later frame is a `SegmentAt`: it carries the bytes of the stream at its sequence
number, and its position is less than `2^31 - 2^16` away from position `n`. A frame fits in an
IP datagram, as the hook in front of the preprocessor ensures when it cuts the frame to the
16-bit IP length.
-/

set_option autoImplicit false

namespace Netstar.Proofs.Preprocessor

open Netstar.Lib
open Netstar.Spec.AsyncFlow
open Netstar.Spec.Net
open Netstar.Spec.Preprocessor
open Netstar.Spec.Preprocessor.TcpReorderPpr
open Netstar.Proofs.Net

/-- The receive window that the constructor sets. -/
def window : Nat := 3737600

/-- An IP datagram and its Ethernet header: the largest frame that the hook passes on. -/
def maxFrameLen : Nat := TcpReorderPpr.ethHdrLen + 65535

/-- The frame is a SYN without payload and with the sequence number `isn`. -/
def SynFrame (isn : BitVec 32) (frame : List UInt8) : Prop :=
  ∃ h off, readHeaders frame = .ok (h, off) ∧ h.fSyn = true ∧ h.seq = ⟨isn⟩ ∧
    frame.length = off + h.dataOffset * 4

/-- The frame is a segment without RST whose payload is the part of the stream `f` at its
position `pos`. The position is less than `2^31 - 2^16` away from position `n`, and `pos` is the
position that its sequence number stands for. -/
structure SegmentAt (f : Int → UInt8) (isn : BitVec 32) (n : Nat) (frame : List UInt8) (h : TcpHdr)
    (off : Nat) (pos : Int) : Prop where
  headers : readHeaders frame = .ok (h, off)
  noRst : h.fRst = false
  fits : off + h.dataOffset * 4 ≤ frame.length
  short : frame.length ≤ maxFrameLen
  seq : h.seq = wrap (isn + 1) pos
  near : -(2 ^ 31 - 2 ^ 16) < pos - n ∧ pos - n < 2 ^ 31 - 2 ^ 16
  payload : Agrees f (pos, frame.drop (off + h.dataOffset * 4))

/-- The preprocessor has taken the first `n` bytes of the stream. -/
structure Tracks (f : Int → UInt8) (isn : BitVec 32) (n : Nat) (s : TcpReorderPpr)
    (m : SegMap Int) : Prop where
  normal : s.abnormalDetected = false
  seenSyn : s.seenSyn = true
  windowEq : s.rcvWindow = window
  initial : s.rcvInitial = ⟨isn⟩
  next : s.rcvNext = wrap (isn + 1) n
  map : s.rcvOutOfOrder = wrapMap (isn + 1) m
  separated : Separated m
  agrees : ∀ t ∈ m, Agrees f t
  bounds : ∀ t ∈ m, n + 1 ≤ t.1 ∧ Seg.stop t ≤ n + window + 2 ^ 16

/-- Arming the timer again changes nothing that the stream depends on. -/
theorem rearm_eq (s : TcpReorderPpr) : s.rearm = s := by
  unfold rearm
  split
  · rename_i h
    rw [← h]
  · rfl

/-- Trimming within the packet drops its first bytes. -/
theorem trimFrontIf_ok (p : Packet) (k : Int) (h0 : 0 ≤ k) (hk : k ≤ p.length) :
    trimFrontIf p k = .ok (p.drop k.toNat) := by
  unfold trimFrontIf
  split
  · exact trimFront_ok p k h0 hk
  · have hz : k.toNat = 0 := by omega
    rw [hz, List.drop_zero]

/-! ### Draining the out-of-order map -/

/-- The drain loop on a separated map. `k` is the position of the next expected byte. The loop
moves whole segments to the data until the map is empty or its first segment starts after the
next expected byte. -/
theorem mergeOutOfOrderLoop_spec (f : Int → UInt8) (base : BitVec 32) (lo : Int) :
    ∀ (m : SegMap Int) (k : Int) (data : List Packet), Separated m → (∀ t ∈ m, Agrees f t) →
      (∀ t ∈ m, InWindow lo t) → lo ≤ k → k < lo + 2 ^ 31 →
      ∃ (k' : Int) (extra : List Packet) (m' : SegMap Int),
        mergeOutOfOrderLoop (wrap base k) data (wrapMap base m)
          = .ok (wrap base k', data ++ extra, wrapMap base m') ∧
        k ≤ k' ∧ (k' = k ∨ Covers m (k' - 1)) ∧ extra.flatten = slice f k (k' - k).toNat ∧
        m' <:+ m ∧ ∀ t ∈ m', k' < t.1 := by
  intro m
  induction m with
  | nil =>
    intro k data _ _ _ _ _
    exact ⟨k, [], [], by simp [mergeOutOfOrderLoop], le_refl _, .inl rfl, by simp,
      List.suffix_refl _, by simp⟩
  | cons seg rest ih =>
    obtain ⟨b, p⟩ := seg
    intro k data hsep hagrees hwin hlo hk
    have hb := hwin (b, p) (by simp)
    simp only [InWindow, Seg.stop_mk] at hb
    have hrest : ∀ t ∈ rest, Agrees f t := fun t ht => hagrees t (by simp [ht])
    have hrwin : ∀ t ∈ rest, InWindow lo t := fun t ht => hwin t (by simp [ht])
    -- Every number in the loop is in one window, so the wrapped comparisons are the real ones.
    simp only [wrapMap_cons, mergeOutOfOrderLoop, add_wrap,
      le_wrap base b k (by omega) (by omega), lt_wrap base k (b + p.length) (by omega) (by omega),
      le_wrap base (b + p.length) k (by omega) (by omega),
      sub_wrap base k b (by omega) (by omega)]
    by_cases hin : b ≤ k ∧ k < b + p.length
    · -- The segment holds the next expected byte: take it from that byte on.
      rw [if_pos (by simpa using hin)]
      have htrim := trimFrontIf_ok p (k - b) (by omega) (by omega)
      have hnext : k + (p.length - (k - b)) = b + p.length := by omega
      obtain ⟨k', extra, m', hrun, hle, hend, hextra, hsuf, hgt⟩ :=
        ih (b + p.length) (data ++ [p.drop (k - b).toNat]) hsep.tail hrest hrwin (by omega)
          (by omega)
      refine ⟨k', p.drop (k - b).toNat :: extra, m', ?_, by omega, .inr ?_, ?_,
        hsuf.trans (List.suffix_cons _ _), hgt⟩
      · rw [htrim, hnext]
        show mergeOutOfOrderLoop _ _ _ = _
        rw [hrun]
        simp
      · rcases hend with rfl | hcovers
        · exact ⟨(b, p), by simp, by simp only; omega, by simp only [Seg.stop_mk]; omega⟩
        · exact (covers_cons _ _ _).mpr (.inr hcovers)
      · have hp : p.drop (k - b).toNat = slice f k (b + p.length - k).toNat := by
          have hdrop : Agrees f (b + ((k - b).toNat : Nat), p.drop (k - b).toNat) :=
            Agrees.drop (hagrees (b, p) (by simp)) _
          have hstart : b + ((k - b).toNat : Int) = k := by omega
          rw [hstart] at hdrop
          have hlen : (p.drop (k - b).toNat).length = (b + p.length - k).toNat := by
            rw [List.length_drop]
            omega
          rw [← hlen]
          exact hdrop
        rw [List.flatten_cons, hp, hextra]
        exact slice_append_between f (by omega) hle
    · rw [if_neg (by simpa using hin)]
      by_cases hold : b + p.length ≤ k
      · -- The segment was received already.
        rw [if_pos (by simpa using hold)]
        obtain ⟨k', extra, m', hrun, hle, hend, hextra, hsuf, hgt⟩ :=
          ih k data hsep.tail hrest hrwin hlo hk
        exact ⟨k', extra, m', hrun, hle, hend.imp_right fun hc => (covers_cons _ _ _).mpr (.inr hc),
          hextra, hsuf.trans (List.suffix_cons _ _), hgt⟩
      · -- The segment starts after the next expected byte, and so do all later ones.
        rw [if_neg (by simpa using hold)]
        refine ⟨k, [], (b, p) :: rest, by simp, le_refl _, .inl rfl, by simp, List.suffix_refl _, ?_⟩
        intro t ht
        rcases List.mem_cons.mp ht with rfl | ht
        · show k < b
          omega
        · have := hsep.head_lt t ht
          simp only [Seg.stop_mk] at this
          omega

/-! ### One packet -/

/-- The event set has the event `ev`. -/
def generates (ge : GeneratedEvents) (ev : TcpReorderEvents) : Bool :=
  ge.bits &&& eventMask ev.value != 0

/-- What one `handle_packet_send` call does for the stream: the state has taken `n'` bytes, the
data grew by the bytes from `n` to `n'`, and `new_data` was generated when there are such
bytes. -/
structure Advances (f : Int → UInt8) (isn : BitVec 32) (n : Nat) (s : TcpReorderPpr) (n' : Nat)
    (s' : TcpReorderPpr) (m' : SegMap Int) (ge : GeneratedEvents) : Prop where
  tracks : Tracks f isn n' s' m'
  le : n ≤ n'
  data : s'.rcvData.flatten = s.rcvData.flatten ++ slice f n (n' - n)
  newData : generates ge .newData = decide (n < n')

/-- A call that takes no byte. -/
theorem advances_refl {f : Int → UInt8} {isn : BitVec 32} {n : Nat} {s s' : TcpReorderPpr}
    {m' : SegMap Int} (h : Tracks f isn n s' m') (hdata : s'.rcvData = s.rcvData) :
    Advances f isn n s n s' m' (events [.pktIn]) where
  tracks := h
  le := Nat.le_refl _
  data := by simp [hdata]
  newData := by
    rw [decide_eq_false (Nat.lt_irrefl n)]
    decide

section
variable {f : Int → UInt8} {isn : BitVec 32} {n : Nat} {s : TcpReorderPpr} {m : SegMap Int}

/-- The segments of the map lie in the window that starts at `n`. -/
theorem Tracks.inWindow (h : Tracks f isn n s m) : ∀ t ∈ m, InWindow n t := by
  intro t ht
  obtain ⟨hlo, hhi⟩ := h.bounds t ht
  simp only [window] at hhi
  exact ⟨by omega, by omega⟩

/-- An acceptable segment starts in the window, or its last byte is in the window. -/
theorem acceptable_bounds (h : Tracks f isn n s m) {pos : Int} {len : Nat}
    (hnear : -(2 ^ 31 - 2 ^ 16) < pos - n ∧ pos - n < 2 ^ 31 - 2 ^ 16) (hlen : len < 2 ^ 16)
    (hacc : s.segmentAcceptable (wrap (isn + 1) pos) len = true) :
    (n ≤ pos ∧ pos < n + window) ∨
      (0 < len ∧ n ≤ pos + len - 1 ∧ pos + len - 1 < n + window) := by
  have hle : ∀ x : Int, -(2 ^ 31 - 2 ^ 16) < x - n → x - n < 2 ^ 31 →
      ((wrap (isn + 1) n).le (wrap (isn + 1) x) && (wrap (isn + 1) x).lt
        (wrap (isn + 1) (n + window))) = true → n ≤ x ∧ x < n + window := by
    intro x hlo hhi hx
    rw [Bool.and_eq_true, le_wrap _ _ _ (by omega) (by omega), decide_eq_true_eq] at hx
    -- The second comparison is only meaningful behind the first one.
    have hlt := hx.2
    rw [lt_wrap _ _ _ (by simp only [window]; omega) (by simp only [window]; omega),
      decide_eq_true_eq] at hlt
    exact ⟨hx.1, hlt⟩
  have hlast : ((wrap (isn + 1) pos).add len).add (-1) = wrap (isn + 1) (pos + len - 1) := by
    rw [add_wrap, add_wrap]
    rfl
  simp only [segmentAcceptable, h.next, h.windowEq, hlast, add_wrap _ (n : Int)] at hacc
  rw [if_neg (by simp [window])] at hacc
  split at hacc
  · exact Or.inl (hle pos hnear.1 (by omega) hacc)
  · split at hacc
    · rename_i hpos
      rcases Bool.or_eq_true _ _ |>.mp hacc with hx | hy
      · exact Or.inl (hle pos hnear.1 (by omega) hx)
      · exact Or.inr ⟨hpos.1, hle (pos + len - 1) (by omega) (by omega) hy⟩
    · cases hacc

/-- A segment that starts after the next expected byte goes to the out-of-order map. -/
theorem acceptSegment_outOfOrder (h : Tracks f isn n s m) (hdr : TcpHdr) {pos : Int}
    {p : Packet} (hpos : n < pos) (hwin : pos < n + window) (hlen : p.length < 2 ^ 16)
    (hp : Agrees f (pos, p)) :
    ∃ s' m', s.acceptSegment hdr (wrap (isn + 1) pos) p = .ok (s', events [.pktIn]) ∧
      Advances f isn n s n s' m' (events [.pktIn]) := by
  have hne : wrap (isn + 1) pos ≠ s.rcvNext := by
    rw [h.next]
    intro heq
    have hsub := sub_wrap (isn + 1) pos n (by omega) (by simp only [window] at hwin; omega)
    rw [heq, sub_wrap _ _ _ (by omega) (by omega)] at hsub
    omega
  have hin : InWindow n (pos, p) := by
    simp only [InWindow, Seg.stop_mk]
    simp only [window] at hwin
    omega
  obtain ⟨m', hm', hre⟩ := merge_reassembles
    (⟨h.separated, SameExtent.refl _, h.agrees⟩ : Reassembles f m m) pos p hp
  have hmerge : merge s.rcvOutOfOrder (wrap (isn + 1) pos) p = .ok (wrapMap (isn + 1) m') := by
    rw [h.map, merge_wrap (isn + 1) n m pos p h.inWindow hin, hm']
    rfl
  refine ⟨{ s with rcvOutOfOrder := wrapMap (isn + 1) m' }, m', ?_, advances_refl ?_ rfl⟩
  · simp only [acceptSegment, if_pos hne, insertOutOfOrder, hmerge, rearm_eq]
    rfl
  · exact ⟨h.normal, h.seenSyn, h.windowEq, h.initial, h.next, rfl, hre.separated, hre.agrees,
      hre.extent.bounds fun t ht => by
        rcases List.mem_cons.mp ht with rfl | ht
        · simp only [Seg.stop_mk]
          omega
        · exact h.bounds t ht⟩

/-- A segment that starts at the next expected byte is taken at once, together with the
out-of-order segments that now continue it. -/
theorem acceptSegment_inOrder (h : Tracks f isn n s m) (hdr : TcpHdr) (hrst : hdr.fRst = false)
    {p : Packet} (hlen : p.length < 2 ^ 16) (hp : Agrees f (n, p)) :
    ∃ s' m' n' ge, s.acceptSegment hdr (wrap (isn + 1) n) p = .ok (s', ge) ∧
      Advances f isn n s n' s' m' ge ∧ n + p.length ≤ n' := by
  by_cases hempty : 0 < p.length
  · obtain ⟨k', extra, m', hrun, hle, -, hextra, hsuf, hgt⟩ :=
      mergeOutOfOrderLoop_spec f (isn + 1) n m (n + p.length) (s.rcvData ++ [p]) h.separated
        h.agrees h.inWindow (by omega) (by omega)
    -- Positions from here on are at least `n`, so they are natural numbers.
    obtain ⟨n', rfl⟩ : ∃ n' : Nat, k' = n' := ⟨k'.toNat, by omega⟩
    refine ⟨{ s with rcvNext := wrap (isn + 1) n', rcvData := s.rcvData ++ [p] ++ extra,
                     rcvOutOfOrder := wrapMap (isn + 1) m' }, m', n', events [.newData, .pktIn],
      ?_, ⟨?_, by omega, ?_, ?_⟩, by omega⟩
    · simp only [acceptSegment, h.next, ne_eq, not_true, if_false, hrst, Bool.false_eq_true,
        if_pos hempty, mergeOutOfOrder, h.map, add_wrap, hrun, rearm_eq]
      rfl
    · refine ⟨h.normal, h.seenSyn, h.windowEq, h.initial, rfl, rfl,
        List.Pairwise.sublist hsuf.sublist h.separated, fun t ht => h.agrees t (hsuf.subset ht),
        fun t ht => ?_⟩
      have hstart := hgt t ht
      have hstop := (h.bounds t (hsuf.subset ht)).2
      omega
    · have hp' : p = slice f n p.length := hp
      have hsplit := slice_append_between f (a := (n : Int)) (b := n + p.length) (c := n')
        (by omega) hle
      have hlen' : ((n : Int) + p.length - n).toNat = p.length := by omega
      have htotal : ((n' : Int) - n).toNat = n' - n := by omega
      rw [hlen', htotal, ← hp', ← hextra] at hsplit
      simp [← hsplit]
    · rw [decide_eq_true (by omega : n < n')]
      decide
  · refine ⟨s, m, n, events [.pktIn], ?_, advances_refl h rfl, by omega⟩
    simp only [acceptSegment, h.next, ne_eq, not_true, if_false, hrst, Bool.false_eq_true,
      if_neg hempty, rearm_eq]

/-- The TCP header starts after the Ethernet header. -/
theorem ethHdrLen_le_of_readHeaders {frame : List UInt8} {hdr : TcpHdr} {off : Nat}
    (h : readHeaders frame = .ok (hdr, off)) : TcpReorderPpr.ethHdrLen ≤ off := by
  simp only [TcpReorderPpr.readHeaders] at h
  split at h
  · split at h
    · simp only [Except.ok.injEq, Prod.mk.injEq] at h
      omega
    · cases h
  · cases h

/-- After the SYN, `handle_packet_send` is its reconstruction block. -/
theorem handlePacketSend_eq_reconstruct (hnormal : s.abnormalDetected = false)
    (hsyn : s.seenSyn = true) {frame : List UInt8} {hdr : TcpHdr} {off : Nat}
    (h : readHeaders frame = .ok (hdr, off)) :
    s.handlePacketSend frame = s.reconstruct hdr off frame := by
  simp only [handlePacketSend, hnormal, Bool.false_eq_true, if_false, h, bind, Except.bind, hsyn,
    Bool.not_true, Bool.and_false]

/-- `seg_len` does not wrap when the headers fit in the frame. -/
theorem segLen_eq {len hl : Nat} (hfits : hl ≤ len) (hlen : len - hl < 2 ^ 32) :
    (len + 2 ^ 32 - hl) % 2 ^ 32 = len - hl := by
  have hsplit : len + 2 ^ 32 - hl = (len - hl) + 2 ^ 32 := by omega
  rw [hsplit, Nat.add_mod_right, Nat.mod_eq_of_lt hlen]

/-- A segment that holds the next expected byte is acceptable. -/
theorem acceptable_of_holds (h : Tracks f isn n s m) {pos : Int} {len : Nat}
    (hnear : -(2 ^ 31 - 2 ^ 16) < pos - n ∧ pos - n < 2 ^ 31 - 2 ^ 16) (hlen : len < 2 ^ 16)
    (hlo : pos ≤ n) (hhi : n < pos + len) :
    s.segmentAcceptable (wrap (isn + 1) pos) len = true := by
  have hlast : ((wrap (isn + 1) pos).add len).add (-1) = wrap (isn + 1) (pos + len - 1) := by
    rw [add_wrap, add_wrap]
    rfl
  have hle : (wrap (isn + 1) n).le (wrap (isn + 1) (pos + len - 1)) = true := by
    rw [le_wrap _ _ _ (by omega) (by omega)]
    exact decide_eq_true (by omega)
  have hlt : (wrap (isn + 1) (pos + len - 1)).lt (wrap (isn + 1) (n + window)) = true := by
    rw [lt_wrap _ _ _ (by simp only [window]; omega) (by simp only [window]; omega)]
    exact decide_eq_true (by simp only [window]; omega)
  simp only [segmentAcceptable, h.next, h.windowEq, hlast, add_wrap _ (n : Int)]
  rw [if_neg (by omega), if_neg (by omega), if_pos ⟨by omega, by decide⟩, hle, hlt, Bool.and_self,
    Bool.or_true]

/-- A segment that is not acceptable is ignored. -/
theorem reconstruct_of_not_acceptable {frame : List UInt8} {hdr : TcpHdr} {off : Nat}
    (hfits : off + hdr.dataOffset * 4 ≤ frame.length)
    (hlen : (frame.drop (off + hdr.dataOffset * 4)).length < 2 ^ 16)
    (hacc : ¬s.segmentAcceptable hdr.seq (frame.drop (off + hdr.dataOffset * 4)).length = true) :
    s.reconstruct hdr off frame = .ok (s, events [.pktIn]) := by
  rw [List.length_drop] at hlen hacc
  simp only [reconstruct, segLen_eq hfits (by omega), if_neg hacc, rearm_eq]

/-- An acceptable segment is cut at the next expected byte when it starts before it. No assertion fails
on the way. -/
theorem reconstruct_of_acceptable {base : BitVec 32} (hnext : s.rcvNext = wrap base n)
    {frame : List UInt8} {hdr : TcpHdr} {off : Nat} {pos : Int}
    (hfits : off + hdr.dataOffset * 4 ≤ frame.length)
    (hlen : (frame.drop (off + hdr.dataOffset * 4)).length < 2 ^ 16) (hseq : hdr.seq = wrap base pos)
    (hacc : s.segmentAcceptable hdr.seq (frame.drop (off + hdr.dataOffset * 4)).length = true)
    (hbounds : (n ≤ pos ∧ pos < n + window) ∨
      (n ≤ pos + (frame.drop (off + hdr.dataOffset * 4)).length - 1 ∧
        pos + (frame.drop (off + hdr.dataOffset * 4)).length - 1 < n + window)) :
    s.reconstruct hdr off frame = s.acceptSegment hdr (wrap base (max pos n))
      ((frame.drop (off + hdr.dataOffset * 4)).drop ((n : Int) - pos).toNat) := by
  generalize hhl : off + hdr.dataOffset * 4 = hl at hfits hlen hacc hbounds ⊢
  have hsegLen : (frame.length + 2 ^ 32 - hl) % 2 ^ 32 = (frame.drop hl).length := by
    rw [List.length_drop] at hlen ⊢
    exact segLen_eq hfits (by omega)
  simp only [reconstruct, hhl, hsegLen]
  rw [if_pos hacc, trimFront_ok frame hl (by omega) (by omega)]
  show (if (frame.drop ((hl : Int).toNat)).length ≠ _ then _ else _) = _
  simp only [window] at hbounds
  rw [Int.toNat_natCast, if_neg (by simp), hnext, hseq, lt_wrap _ _ _ (by omega) (by omega)]
  by_cases hold : pos < n
  · -- The segment starts before the next expected byte: cut it there.
    rw [if_pos (by simpa using hold)]
    have hdup : min ((wrap base n).raw - (wrap base pos).raw).toNat (frame.drop hl).length =
        ((n : Int) - pos).toNat := by
      rw [raw_sub_wrap, BitVec.toNat_ofInt]
      omega
    have hstart : pos + (((n : Int) - pos).toNat : Nat) = max pos n := by omega
    rw [hdup, trimFront_ok _ _ (by omega) (by omega), add_wrap, hstart]
    rfl
  · have hmax : max pos (n : Int) = pos := by omega
    have hzero : ((n : Int) - pos).toNat = 0 := by omega
    rw [if_neg (by simpa using hold), hmax, hzero, List.drop_zero]

/-- One segment of the stream. No assertion fails and `abort()` is not reached, and a segment that
holds the next expected byte is taken to its end. -/
theorem handlePacketSend_advances (h : Tracks f isn n s m) {frame : List UInt8} {hdr : TcpHdr}
    {off : Nat} {pos : Int} (hseg : SegmentAt f isn n frame hdr off pos) :
    ∃ s' m' n' ge, s.handlePacketSend frame = .ok (s', ge) ∧
      Advances f isn n s n' s' m' ge ∧
      (pos ≤ n → pos + (frame.drop (off + hdr.dataOffset * 4)).length ≤ n') := by
  obtain ⟨hhead, hrst, hfits, hshort, hseq, hnear, hpay⟩ := hseg
  have hoff := ethHdrLen_le_of_readHeaders hhead
  have hlen : (frame.drop (off + hdr.dataOffset * 4)).length < 2 ^ 16 := by
    rw [List.length_drop]
    unfold maxFrameLen at hshort
    omega
  rw [handlePacketSend_eq_reconstruct h.normal h.seenSyn hhead]
  by_cases hacc : s.segmentAcceptable hdr.seq (frame.drop (off + hdr.dataOffset * 4)).length = true
  · have hbounds := acceptable_bounds h hnear hlen (hseq ▸ hacc)
    rw [reconstruct_of_acceptable h.next hfits hlen hseq hacc (hbounds.imp_right And.right)]
    have hcut := Agrees.drop hpay ((n : Int) - pos).toNat
    generalize frame.drop (off + hdr.dataOffset * 4) = p at hlen hbounds hcut ⊢
    by_cases hold : pos ≤ n
    · have hmax : max pos (n : Int) = n := by omega
      have hstart : pos + (((n : Int) - pos).toNat : Nat) = n := by omega
      rw [hmax]
      rw [hstart] at hcut
      obtain ⟨s', m', n', ge, hrun, hadv, hend⟩ :=
        acceptSegment_inOrder h hdr hrst (by rw [List.length_drop]; omega) hcut
      rw [List.length_drop] at hend
      exact ⟨s', m', n', ge, hrun, hadv, fun _ => by omega⟩
    · have hmax : max pos (n : Int) = pos := by omega
      have hzero : ((n : Int) - pos).toNat = 0 := by omega
      rw [hzero] at hcut
      rw [hmax, hzero]
      obtain ⟨s', m', hrun, hadv⟩ := acceptSegment_outOfOrder h hdr
        (show (n : Int) < pos by omega) (by omega) hlen (by simpa using hcut)
      exact ⟨s', m', n, _, hrun, hadv, fun _ => by omega⟩
  · rw [reconstruct_of_not_acceptable hfits hlen hacc]
    refine ⟨s, m, n, _, rfl, advances_refl h rfl, fun hlo => ?_⟩
    by_contra hhi
    rw [hseq] at hacc
    exact hacc (acceptable_of_holds h hnear hlen hlo (by omega))

end

/-- The SYN. Its own sequence number stands before `_rcv_next`, so the segment is not acceptable
and the call ends there. -/
theorem handlePacketSend_syn (f : Int → UInt8) (isn : BitVec 32) (next initial : TcpSeq)
    {frame : List UInt8} (hsyn : SynFrame isn frame) :
    ∃ s, (create next initial).handlePacketSend frame = .ok (s, events [.pktIn]) ∧
      Tracks f isn 0 s [] ∧ s.rcvData = [] := by
  obtain ⟨hdr, off, hhead, hflag, hseq, hlen⟩ := hsyn
  let s : TcpReorderPpr :=
    { create next initial with
        seenSyn := true, rcvNext := hdr.seq.add 1, rcvInitial := hdr.seq }
  have hzero : hdr.seq.add 1 = wrap (isn + 1) 0 := by
    rw [hseq]
    simp [TcpSeq.add, wrap]
  have hself : hdr.seq = wrap (isn + 1) (-1) := by
    rw [hseq]
    simp only [wrap, TcpSeq.mk.injEq]
    bv_omega
  have hacc : s.segmentAcceptable hdr.seq 0 = false := by
    have hle : (wrap (isn + 1) 0).le (wrap (isn + 1) (-1)) = false := by
      rw [le_wrap _ _ _ (by omega) (by omega)]
      decide
    simp only [segmentAcceptable]
    rw [if_neg (by simp [s, create]), if_pos (by simp [s, create])]
    show (TcpSeq.le (hdr.seq.add 1) hdr.seq && _) = false
    rw [hzero, hself, hle, Bool.false_and]
  refine ⟨s, ?_, ⟨rfl, rfl, rfl, hseq, hzero, rfl, List.Pairwise.nil, by simp, by simp⟩, rfl⟩
  have hrec : s.reconstruct hdr off frame = .ok (s, events [.pktIn]) := by
    simp only [reconstruct, hlen, Nat.add_sub_cancel_left, Nat.mod_self, hacc, rearm_eq]
    rfl
  rw [← hrec]
  simp only [handlePacketSend, create, Bool.false_eq_true, if_false, hhead, bind, Except.bind,
    hflag, Bool.not_true, Bool.false_and, Bool.not_false, Bool.and_self, if_true, s]

/-! ### Runs -/

/-- A run of the preprocessor on one TCP stream. It reaches the state `s`, and the bytes `out`
were read from it so far. -/
inductive ReorderRun (f : Int → UInt8) (isn : BitVec 32) : TcpReorderPpr → List UInt8 → Prop
  /-- The first packet is a SYN without payload. -/
  | syn (next initial : TcpSeq) {frame : List UInt8} {s : TcpReorderPpr} {ge : GeneratedEvents} :
      SynFrame isn frame → (create next initial).handlePacketSend frame = .ok (s, ge) →
      ReorderRun f isn s []
  /-- A later segment of the stream. -/
  | segment {s s' : TcpReorderPpr} {out frame : List UInt8} {h : TcpHdr} {off : Nat} {pos : Int}
      {ge : GeneratedEvents} :
      ReorderRun f isn s out →
      SegmentAt f isn (out ++ s.rcvData.flatten).length frame h off pos →
      s.handlePacketSend frame = .ok (s', ge) → ReorderRun f isn s' out
  /-- A call of `read_reordering_buffer`. -/
  | read {s : TcpReorderPpr} {out : List UInt8} :
      ReorderRun f isn s out →
      ReorderRun f isn s.readReorderingBuffer.2 (out ++ s.readReorderingBuffer.1)

/-- What was read and what is still in `_rcv_data` is a prefix of the stream, and the state
tracks its length. -/
def Reconstructs (f : Int → UInt8) (isn : BitVec 32) (s : TcpReorderPpr) (out : List UInt8) : Prop :=
  ∃ n m, Tracks f isn n s m ∧ out ++ s.rcvData.flatten = slice f 0 n

section
variable {f : Int → UInt8} {isn : BitVec 32} {s s' : TcpReorderPpr} {out frame : List UInt8}
  {h : TcpHdr} {off : Nat} {pos : Int} {ge : GeneratedEvents}

/-- The length of the prefix is the position that the state tracks. -/
theorem Reconstructs.tracks (hs : Reconstructs f isn s out) :
    ∃ m, Tracks f isn (out ++ s.rcvData.flatten).length s m ∧
      out ++ s.rcvData.flatten = slice f 0 (out ++ s.rcvData.flatten).length := by
  obtain ⟨n, m, htracks, hgot⟩ := hs
  have hlen : (out ++ s.rcvData.flatten).length = n := by rw [hgot, length_slice]
  rw [hlen]
  exact ⟨m, htracks, hgot⟩

/-- A segment of the stream keeps the reconstruction. -/
theorem Reconstructs.segment (hs : Reconstructs f isn s out)
    (hseg : SegmentAt f isn (out ++ s.rcvData.flatten).length frame h off pos)
    (hrun : s.handlePacketSend frame = .ok (s', ge)) : Reconstructs f isn s' out := by
  obtain ⟨n, m, htracks, hgot⟩ := hs
  rw [hgot, length_slice] at hseg
  obtain ⟨s₁, m', n', ge, hs₁, hadv, _⟩ := handlePacketSend_advances htracks hseg
  rw [hs₁] at hrun
  cases hrun
  refine ⟨n', m', hadv.tracks, ?_⟩
  rw [hadv.data, ← List.append_assoc, hgot]
  have hsplit := slice_append f 0 n (n' - n)
  have hsum : n + (n' - n) = n' := Nat.add_sub_cancel' hadv.le
  rwa [hsum, Int.zero_add] at hsplit

/-- Reading the buffer keeps the reconstruction. -/
theorem Reconstructs.read (hs : Reconstructs f isn s out) :
    Reconstructs f isn s.readReorderingBuffer.2 (out ++ s.readReorderingBuffer.1) := by
  obtain ⟨n, m, htracks, hgot⟩ := hs
  refine ⟨n, m, ⟨htracks.normal, htracks.seenSyn, htracks.windowEq, htracks.initial,
    htracks.next, htracks.map, htracks.separated, htracks.agrees, htracks.bounds⟩, ?_⟩
  simpa [readReorderingBuffer] using hgot

/-- The entries of the out-of-order map lie behind the prefix and carry the bytes of the stream. -/
theorem Reconstructs.outOfOrder (hs : Reconstructs f isn s out) : ∀ e ∈ s.rcvOutOfOrder,
    s.rcvNext.lt e.1 = true ∧ ∃ pos : Int, (out ++ s.rcvData.flatten).length < pos ∧
      e.1 = wrap (isn + 1) pos ∧ e.2 = slice f pos e.2.length := by
  obtain ⟨m, htracks, -⟩ := hs.tracks
  intro e he
  rw [htracks.map] at he
  obtain ⟨t, ht, rfl⟩ := List.mem_map.mp he
  have hbounds := htracks.bounds t ht
  have hle := Seg.start_le_stop t
  simp only [window] at hbounds
  refine ⟨?_, t.1, by omega, rfl, htracks.agrees t ht⟩
  rw [htracks.next, lt_wrap _ _ _ (by omega) (by omega)]
  exact decide_eq_true (by omega)

end

/-- Every run of segments and reads reconstructs the stream. -/
theorem reconstructs_of_run {f : Int → UInt8} {isn : BitVec 32} {s : TcpReorderPpr}
    {out : List UInt8} (h : ReorderRun f isn s out) : Reconstructs f isn s out := by
  induction h with
  | syn next initial hsyn hrun =>
    obtain ⟨s₀, hs₀, htracks, hdata⟩ := handlePacketSend_syn f isn next initial hsyn
    rw [hs₀] at hrun
    cases hrun
    exact ⟨0, [], htracks, by simp [hdata]⟩
  | segment _ hseg hrun ih => exact ih.segment hseg hrun
  | read _ ih => exact ih.read

/-- The bytes of the stream that the preprocessor has delivered or holds in order are the stream
prefix of length `_rcv_next - _rcv_initial - 1`, read modulo `2^32`. The out-of-order entries
start strictly after `_rcv_next` and carry the bytes of the stream at their positions. The SYN
and every segment of the stream are processed without a failed assertion, and a packet generates
`new_data` exactly when it makes the prefix grow. -/
theorem tcpReorder_correct (f : Int → UInt8) (isn : BitVec 32) {s : TcpReorderPpr}
    {out : List UInt8} (hrun : ReorderRun f isn s out) :
    let got := out ++ s.rcvData.flatten
    (got = slice f 0 got.length ∧
      got.length % 2 ^ 32 = (s.rcvNext.raw - s.rcvInitial.raw - 1).toNat ∧
      s.rcvInitial = ⟨isn⟩) ∧
    (∀ e ∈ s.rcvOutOfOrder, s.rcvNext.lt e.1 = true ∧ ∃ pos : Int, got.length < pos ∧
      e.1 = wrap (isn + 1) pos ∧ e.2 = slice f pos e.2.length) ∧
    (∀ next initial frame, SynFrame isn frame →
      ∃ s' ge, (create next initial).handlePacketSend frame = .ok (s', ge) ∧
        generates ge .newData = false ∧ s'.rcvData = []) ∧
    ∀ frame h off pos, SegmentAt f isn got.length frame h off pos →
      ∃ s' ge, s.handlePacketSend frame = .ok (s', ge) ∧
        (generates ge .newData = true ↔ got.length < (out ++ s'.rcvData.flatten).length) := by
  have hrec := reconstructs_of_run hrun
  obtain ⟨m, htracks, hgot⟩ := hrec.tracks
  have hmap := hrec.outOfOrder
  obtain ⟨n, hn⟩ : ∃ n, (out ++ s.rcvData.flatten).length = n := ⟨_, rfl⟩
  rw [hn] at htracks hgot
  simp only [hn] at hmap ⊢
  refine ⟨⟨hgot, ?_, htracks.initial⟩, hmap, fun next initial frame hsyn => ?_,
    fun frame h off pos hseg => ?_⟩
  · have hdiff : (wrap (isn + 1) n).raw - isn - 1 = BitVec.ofInt 32 n := by
      simp only [wrap]
      bv_omega
    rw [htracks.next, htracks.initial, hdiff, BitVec.ofInt_natCast, BitVec.toNat_ofNat]
  · obtain ⟨s', hs', -, hdata⟩ := handlePacketSend_syn f isn next initial hsyn
    exact ⟨s', _, hs', by decide, hdata⟩
  · obtain ⟨s', m', n', ge, hs', hadv, _⟩ := handlePacketSend_advances htracks hseg
    refine ⟨s', ge, hs', ?_⟩
    rw [hadv.newData, hadv.data, ← List.append_assoc, hgot, List.length_append, length_slice,
      length_slice, decide_eq_true_eq]
    have := hadv.le
    omega

/-- A frame with a 20-byte IP header and a 20-byte TCP header: sequence number bytes, flags and
payload. -/
def plainFrame (seq : List UInt8) (flags : UInt8) (payload : List UInt8) : List UInt8 :=
  List.replicate 14 0 ++ [0x45] ++ List.replicate 23 0 ++ seq ++ [0, 0, 0, 0, 0x50, flags] ++
    List.replicate 6 0 ++ payload

/-- A run that starts at the last sequence number: a SYN, two bytes, and a read. -/
theorem tcpReorder_correct_wrapping :
    ∃ s, ReorderRun (fun _ => 7) 0xffffffff#32 s [7, 7] ∧ s.rcvNext = ⟨2#32⟩ ∧
      [7, 7] ++ s.rcvData.flatten = slice (fun _ => 7) 0 2 := by
  have hsyn : SynFrame 0xffffffff#32 (plainFrame [0xff, 0xff, 0xff, 0xff] 0x02 []) :=
    ⟨⟨⟨0xffffffff#32⟩, 5, true, false⟩, 34, by decide, rfl, rfl, by decide⟩
  have hstart := ReorderRun.syn (f := fun _ => 7) ⟨0#32⟩ ⟨0#32⟩ hsyn rfl
  have hseg : SegmentAt (fun _ => 7) 0xffffffff#32 0 (plainFrame [0, 0, 0, 0] 0x10 [7, 7])
      ⟨⟨0#32⟩, 5, false, false⟩ 34 0 :=
    ⟨by decide, rfl, by decide, by decide, by decide, by decide, rfl⟩
  have hread := ReorderRun.read (ReorderRun.segment hstart hseg rfl)
  exact ⟨_, hread, rfl, (tcpReorder_correct _ _ hread).1.1⟩

end Netstar.Proofs.Preprocessor
