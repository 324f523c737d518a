import Mathlib.Data.List.Forall2
import Netstar.Proofs.Core.InputStream
import Netstar.Spec.Rpc.Frame

/-!
# `Netstar.Proofs.Rpc.Frame`: frames arrive as they were sent

`Holds` says what a buffer to send has, whatever its chunks are. `requestBuf_holds` and
`respond_holds` give the bytes of the two kinds of frames, and `compress_holds` those of a compressed
one.

`IsFrame` says how a read takes a frame from the front of a stream, and what it does if the stream
ends inside. It follows for a header with a payload, then for a compressed frame around one, and
`delivers_of_frames` goes from one frame to a sequence.
-/

set_option autoImplicit false

namespace Netstar.Proofs.Rpc.Frame

open Netstar.Lib
open Netstar.Spec.Core
open Netstar.Spec.Rpc
open Netstar.Proofs.Core.InputStream

/-! ### Buffers to send -/

/-- The buffer has these bytes, and the first `space` of them are in its first chunk. -/
structure Holds (b : SndBuf) (space : Nat) (bs : Bytes) : Prop where
  bytes : b.bytes = bs
  size : b.size.toNat = bs.length
  front : ∃ front, b.front = some front ∧ space ≤ front.length

/-- The bytes of a buffer are its first chunk and the others. -/
theorem bytes_front {b : SndBuf} {front : Bytes} (h : b.front = some front) :
    ∃ rest, b.bytes = front ++ rest ∧ ∀ front', (b.setFront front').bytes = front' ++ rest ∧
      (b.setFront front').front = some front' ∧ (b.setFront front').size = b.size := by
  obtain ⟨size, bufs⟩ := b
  cases bufs with
  | one b =>
    cases h
    exact ⟨[], rfl, fun front' => ⟨rfl, rfl, rfl⟩⟩
  | many v =>
    cases v with
    | nil => cases h
    | cons b v =>
      cases h
      exact ⟨v.flatten, rfl, fun front' => ⟨rfl, rfl, rfl⟩⟩

/-- A 32-bit size goes down without wrapping by what it covers. -/
theorem toNat_sub_ofNat {a : UInt32} {n : Nat} (h : n ≤ a.toNat) :
    (a - UInt32.ofNat n).toNat = a.toNat - n := by
  have hn : (UInt32.ofNat n).toNat = n :=
    UInt32.toNat_ofNat_of_lt' (Nat.lt_of_le_of_lt h a.toNat_lt)
  rw [UInt32.toNat_sub_of_le _ _ (by rw [UInt32.le_iff_toNat_le, hn]; exact h), hn]

/-- A write into the first chunk. -/
theorem Holds.writeFront {b : SndBuf} {space offset : Nat} {before old after new : Bytes}
    (h : Holds b space (before ++ (old ++ after))) (hoffset : before.length = offset)
    (hlen : new.length = old.length) (hspace : offset + old.length ≤ space) :
    ∃ b', b.writeFront offset new = some b' ∧ b'.size = b.size ∧
      Holds b' space (before ++ (new ++ after)) := by
  subst hoffset
  obtain ⟨front, hfront, hle⟩ := h.front
  obtain ⟨rest, hbytes, hset⟩ := bytes_front hfront
  have hfits : before.length + new.length ≤ front.length := by omega
  obtain ⟨hbytes', hfront', hsize'⟩ := hset (SndBuf.overwrite before.length new front)
  refine ⟨b.setFront (SndBuf.overwrite before.length new front), ?_, hsize', ?_, ?_, _, hfront', ?_⟩
  · rw [SndBuf.writeFront, hfront]
    exact if_pos hfits
  · have hall : front ++ rest = before ++ (old ++ after) := by rw [← hbytes, h.bytes]
    have htake : front.take before.length = before := by
      rw [← List.take_append_of_le_length (by omega), hall, List.take_left]
    have hdrop : front.drop (before.length + new.length) ++ rest = after := by
      rw [← List.drop_append_of_le_length hfits, hall, ← List.append_assoc, hlen,
        ← List.length_append, List.drop_left]
    rw [hbytes', SndBuf.overwrite, htake, List.append_assoc, List.append_assoc, hdrop]
  · rw [hsize', h.size]
    simp only [List.length_append, hlen]
  · rw [SndBuf.overwrite]
    simp only [List.length_append, List.length_take, List.length_drop]
    omega

/-- A trim of the first chunk. -/
theorem Holds.trimFront {b : SndBuf} {space : Nat} {head after : Bytes}
    (h : Holds b space (head ++ after)) (hspace : head.length ≤ space) :
    ∃ b', b.trimFront head.length = some b' ∧ Holds b' (space - head.length) after := by
  obtain ⟨front, hfront, hle⟩ := h.front
  obtain ⟨rest, hbytes, hset⟩ := bytes_front hfront
  obtain ⟨hbytes', hfront', hsize'⟩ := hset (front.drop head.length)
  refine ⟨{ b.setFront (front.drop head.length) with size := b.size - UInt32.ofNat head.length },
    ?_, ?_, ?_, front.drop head.length, hfront', ?_⟩
  · rw [SndBuf.trimFront, hfront]
    exact if_pos (by omega)
  · show (b.setFront (front.drop head.length)).bytes = after
    rw [hbytes', ← List.drop_append_of_le_length (by omega), ← hbytes, h.bytes, List.drop_left]
  · have hsize := h.size
    rw [List.length_append] at hsize
    show (b.size - UInt32.ofNat head.length).toNat = after.length
    rw [toNat_sub_ofNat (by omega)]
    omega
  · rw [List.length_drop]
    omega

/-! ### The frames of the sender -/

/-- The space of a header in two parts. -/
theorem cut {bs : Bytes} {n m : Nat} (h : bs.length = n + m) :
    ∃ a b, bs = a ++ b ∧ a.length = n ∧ b.length = m := by
  refine ⟨bs.take n, bs.drop n, (List.take_append_drop n bs).symm, ?_, ?_⟩
  · rw [List.length_take]
    omega
  · rw [List.length_drop]
    omega

/-- A buffer after `compress`. -/
theorem compress_holds {c : Negotiated} {comp : Compressor} (hcomp : c.compressor = some comp)
    (hinv : comp.Inverts) {buf out : SndBuf} (hsized : buf.Sized) (hne : buf.bytes ≠ [])
    (hout : c.compress buf = some out) :
    ∃ zipped, out.bytes = LittleEndian.encode 4 zipped.length ++ zipped ∧ zipped.length < 2 ^ 32 ∧
      ∀ r : RcvBuf, r.Sized → r.bytes = zipped →
        ∃ d, comp.decompress r = some d ∧ d.bytes = buf.bytes := by
  rw [Negotiated.compress, hcomp] at hout
  obtain ⟨zip, hzip, hwrite⟩ := Option.bind_eq_some_iff.mp hout
  have hsize := hinv.sized hsized hne hzip
  obtain ⟨front, hfront, hspace⟩ := hinv.space hsized hne hzip
  have hlen : 4 ≤ zip.bytes.length := by
    obtain ⟨rest, hrest, -⟩ := bytes_front hfront
    rw [hrest, List.length_append]
    omega
  obtain ⟨head, zipped, hcut, hhead, hzipped⟩ :=
    @cut zip.bytes 4 (zip.bytes.length - 4) (by omega)
  have hholds : Holds zip 4 ([] ++ (head ++ zipped)) :=
    ⟨hcut, by rw [hsize, hcut]; rfl, front, hfront, hspace⟩
  obtain ⟨out', hout', -, hholds'⟩ := @Holds.writeFront _ _ 0 _ _ _
    (LittleEndian.encode 4 (zip.size - 4).toNat) hholds rfl (by simp [hhead]) (by omega)
  rw [hout'] at hwrite
  cases hwrite
  have hfield : (zip.size - 4).toNat = zipped.length := by
    have hsub : (zip.size - 4).toNat = zip.size.toNat - 4 :=
      @toNat_sub_ofNat zip.size 4 (by rw [hsize]; exact hlen)
    rw [hsub, hsize, hzipped]
  refine ⟨zipped, ?_, ?_, ?_⟩
  · rw [hholds'.bytes, hfield]
    rfl
  · have := zip.size.toNat_lt
    rw [hsize] at this
    omega
  · intro r hr hbytes
    apply hinv.inverse hsized hne hzip r hr
    rw [hbytes, hcut, List.drop_left' hhead]

/-! ### Reading a frame -/

/-- The loop reads what is left, or the whole stream. -/
theorem readMore_spec {s : InputStream UInt8} {left : Nat} {v : List (SourceBuf UInt8)}
    (h : Ends s) (hleft : 0 < left) :
    (readMore s left v).1 = left - (bytes s).length ∧
      flat (readMore s left v).2.1 = flat v ++ (bytes s).take left ∧
      bytes (readMore s left v).2.2 = (bytes s).drop left ∧ Ends (readMore s left v).2.2 := by
  fun_induction readMore s left v with
  | case1 s left v r hnil =>
    -- the stream has ended
    obtain ⟨hfront, -⟩ := readUpTo_spec h hleft
    have hempty : bytes s = [] := hfront.empty hnil
    have hrest := hfront.split
    rw [show (s.readUpTo left).1 = [] from hnil, List.nil_append] at hrest
    refine ⟨?_, ?_, ?_, hfront.ends⟩
    · rw [hempty]
      rfl
    · rw [hempty, List.take_nil, List.append_nil]
    · rw [← hrest, hempty, List.drop_nil]
  | case2 s left v r hne hlast =>
    obtain ⟨hfront, hle⟩ := readUpTo_spec h hleft
    have hlen : r.1.length = left := by
      have hle' : r.1.length ≤ left := hle
      omega
    have hsplit : bytes s = r.1 ++ bytes r.2 := hfront.split
    refine ⟨?_, ?_, ?_, hfront.ends⟩
    · rw [hsplit, List.length_append]
      omega
    · rw [hsplit, List.take_left' hlen]
      simp [flat]
    · rw [hsplit, List.drop_left' hlen]
  | case3 s left v r hne hmore ih =>
    obtain ⟨hfront, hle⟩ := readUpTo_spec h hleft
    have hle' : r.1.length ≤ left := hle
    have hsplit : bytes s = r.1 ++ bytes r.2 := hfront.split
    obtain ⟨hleft', hgot, hrest, hends⟩ := ih hfront.ends (Nat.pos_of_ne_zero hmore)
    refine ⟨?_, ?_, ?_, hends⟩
    · rw [hleft', hsplit, List.length_append]
      omega
    · rw [hgot, hsplit, List.take_append, List.take_of_length_le hle']
      simp [flat]
    · rw [hrest, hsplit, List.drop_append, List.drop_of_length_le hle', List.nil_append]

/-- `read_rcv_buf` reads as many bytes as it can get, and its size is their number. -/
structure ReadsBuf (before : Bytes) (n : Nat) (r : RcvBuf × InputStream UInt8) : Prop where
  size : r.1.size.toNat = min n before.length
  payload : r.1.bytes = before.take n
  rest : bytes r.2 = before.drop n
  ends : Ends r.2

/-- Reading a receive buffer takes as many bytes as asked for, or all there are. -/
theorem readRcvBuf_spec {s : InputStream UInt8} (h : Ends s) (size : UInt32) :
    ReadsBuf (bytes s) size.toNat (readRcvBuf s size) := by
  rw [readRcvBuf]
  by_cases hzero : size.toNat = 0
  · obtain ⟨hnil, hbytes, hends⟩ := readUpTo_zero h
    simp only [hzero]
    rw [dif_pos hnil]
    refine ⟨?_, ?_, ?_, hends⟩
    · rw [Nat.zero_min]
      rfl
    · rfl
    · exact hbytes
  · obtain ⟨hfront, hle⟩ := readUpTo_spec h (Nat.pos_of_ne_zero hzero)
    have hsplit := hfront.split
    simp only []
    split
    · -- the stream has ended
      rename_i hnil
      have hempty := hfront.empty hnil
      rw [hnil, List.nil_append] at hsplit
      refine ⟨?_, ?_, ?_, hfront.ends⟩
      · rw [hempty, List.length_nil, Nat.min_zero]
        rfl
      · rw [hempty, List.take_nil]
        rfl
      · rw [← hsplit, hempty, List.drop_nil]
    · rename_i hne
      split
      · rename_i hlen
        refine ⟨?_, ?_, ?_, hfront.ends⟩
        · rw [hsplit, List.length_append]
          show size.toNat = _
          omega
        · rw [hsplit, List.take_left' hlen]
          exact List.append_nil _
        · rw [hsplit, List.drop_left' hlen]
      · rename_i hlen
        obtain ⟨hleft, hgot, hrest, hends⟩ := @readMore_spec (s.readUpTo size.toNat).2
          (size.toNat - (s.readUpTo size.toNat).1.length) [⟨(s.readUpTo size.toNat).1, hne⟩]
          hfront.ends (by omega)
        refine ⟨?_, ?_, ?_, hends⟩
        · show (size - UInt32.ofNat _).toNat = _
          rw [hleft, toNat_sub_ofNat (by omega), hsplit, List.length_append]
          omega
        · show flat (readMore _ _ _).2.1 = _
          rw [hgot, hsplit, List.take_append, List.take_of_length_le hle]
          simp [flat]
        · rw [hrest, hsplit, List.drop_append, List.drop_of_length_le hle, List.nil_append]

/-- The bytes are a frame for `read` with the value `w`. -/
structure IsFrame {V W : Type} (read : InputStream UInt8 → Option (Option V × InputStream UInt8))
    (value : V → W) (w : W) (frame : Bytes) : Prop where
  whole : ∀ {s rest}, Ends s → bytes s = frame ++ rest →
    ∃ v s', read s = some (some v, s') ∧ value v = w ∧ bytes s' = rest ∧ Ends s'
  short : ∀ {s}, Ends s → bytes s <+: frame → bytes s ≠ frame → ∃ s', read s = some (none, s')

/-- A stream that ends too early ends in the first part or in the second. -/
theorem short_cases {part front back : Bytes} (hpre : part <+: front ++ back)
    (hne : part ≠ front ++ back) :
    part.length < front.length ∨ ∃ rest, part = front ++ rest ∧ rest.length < back.length := by
  by_cases hlt : part.length < front.length
  · exact .inl hlt
  · have hfront : front <+: part := List.prefix_of_prefix_length_le
      (List.prefix_append front back) hpre (Nat.le_of_not_lt hlt)
    obtain ⟨rest, rfl⟩ := hfront
    rw [List.prefix_append_right_inj] at hpre
    refine .inr ⟨rest, rfl, Nat.lt_of_le_of_ne hpre.length_le ?_⟩
    intro hlen
    exact hne (by rw [hpre.eq_of_length hlen])

/-- A compressed frame: the number of bytes, and bytes that `decompress` takes to a frame. -/
theorem readCompressed_isFrame {H W : Type} {F : FrameType H} {value : H × RcvBuf → W} {w : W}
    {c : Negotiated} {comp : Compressor} (hcomp : c.compressor = some comp) {plain zipped : Bytes}
    (hplain : IsFrame (fun s => some (readFrame F s)) value w plain) (hlt : zipped.length < 2 ^ 32)
    (hunzip : ∀ r : RcvBuf, r.Sized → r.bytes = zipped →
      ∃ d, comp.decompress r = some d ∧ d.bytes = plain) :
    IsFrame (readFrameCompressed F c) value w (LittleEndian.encode 4 zipped.length ++ zipped) := by
  have hhead := LittleEndian.length_encode 4 zipped.length
  have hsize : (UInt32.ofNat (LittleEndian.decode (LittleEndian.encode 4 zipped.length))).toNat =
      zipped.length := by
    rw [LittleEndian.decode_encode _ _ hlt]
    exact UInt32.toNat_ofNat_of_lt' hlt
  generalize hn : UInt32.ofNat (LittleEndian.decode (LittleEndian.encode 4 zipped.length)) = n at hsize
  constructor
  · intro s rest hends hbytes
    rw [List.append_assoc] at hbytes
    obtain ⟨s₁, hread, hrest, hends₁⟩ := readExactly_front hends hbytes hhead
    obtain ⟨hbuf, hpayload, hrest₂, hends₂⟩ := readRcvBuf_spec hends₁ n
    rw [hrest, hsize, List.take_left] at hpayload
    rw [hrest, hsize, List.drop_left] at hrest₂
    rw [hrest, hsize, List.length_append, Nat.min_eq_left (Nat.le_add_right _ _)] at hbuf
    obtain ⟨d, hd, hdbytes⟩ :=
      hunzip (readRcvBuf s₁ n).1 (by rw [RcvBuf.Sized, hbuf, hpayload]) hpayload
    -- The inner frame is read from a stream of its own, which has nothing else in it.
    have hinner : bytes (InputStream.create d.bufs.toList) = plain ++ [] := by
      rw [List.append_nil, ← hdbytes]
      rfl
    have hopen : Ends (InputStream.create d.bufs.toList) := by
      intro htrue
      cases htrue
    obtain ⟨v, s₂, hv, hw, -, -⟩ := hplain.whole hopen hinner
    refine ⟨v, (readRcvBuf s₁ n).2, ?_, hw, hrest₂, hends₂⟩
    have hsame : (readRcvBuf s₁ n).1.size = n := UInt32.toNat_inj.mp (by rw [hbuf, hsize])
    rw [readFrameCompressed, hcomp]
    simp only [hread, hhead, ne_eq, not_true_eq_false, if_false, hn]
    rw [readCompressed]
    simp only [hsame, ne_eq, not_true_eq_false, if_false, hd, Option.bind_eq_bind, Option.bind_some]
    rw [Option.some.inj hv]
  · intro s hends hpre hne
    rw [readFrameCompressed, hcomp]
    rcases short_cases hpre hne with hshort | ⟨rest, hpart, hshort⟩
    · rw [hhead] at hshort
      obtain ⟨s', hread⟩ := readExactly_short hshort
      refine ⟨s', ?_⟩
      simp [hread]
    · obtain ⟨s₁, hread, hrest, hends₁⟩ := readExactly_front hends hpart hhead
      have hbuf := (readRcvBuf_spec hends₁ n).size
      -- The stream ends before the announced number of bytes.
      have hdiff : (readRcvBuf s₁ n).1.size ≠ n := by
        intro heq
        rw [heq, hrest] at hbuf
        omega
      refine ⟨(readRcvBuf s₁ n).2, ?_⟩
      simp only [hread, hhead, ne_eq, not_true_eq_false, if_false, hn]
      rw [readCompressed]
      simp only [hdiff, ne_eq, not_false_eq_true, if_true]

/-- At the end of the stream there is only the empty value. -/
theorem readFrameCompressed_end {H : Type} {F : FrameType H} (hpos : 0 < F.headerSize)
    (c : Negotiated) {s : InputStream UInt8} (hnil : bytes s = []) :
    ∃ s', readFrameCompressed F c s = some (none, s') := by
  rw [readFrameCompressed]
  cases c.compressor with
  | none =>
    obtain ⟨s', hread⟩ := @readExactly_short _ s F.headerSize (by rw [hnil]; exact hpos)
    refine ⟨s', ?_⟩
    simp [readFrame, hread, Nat.ne_of_lt hpos]
  | some comp =>
    obtain ⟨s', hread⟩ := @readExactly_short _ s 4 (by rw [hnil]; exact Nat.zero_lt_succ 3)
    refine ⟨s', ?_⟩
    simp [hread]

/-! ### Sequences of frames -/

section Sequences

variable {M V W : Type} {read : InputStream UInt8 → Option (Option V × InputStream UInt8)}
  {value : V → W}

/-- All the frames in front of the rest. -/
theorem readFrames_whole {values : List W} {frames : List Bytes}
    (h : List.Forall₂ (IsFrame read value) values frames) {s : InputStream UInt8} {rest : Bytes}
    (hends : Ends s) (hbytes : bytes s = frames.flatten ++ rest) :
    ∃ (vs : List V) (s' : InputStream UInt8),
      readFrames read frames.length s = some (vs.map some, s') ∧ vs.map value = values ∧
        bytes s' = rest ∧ Ends s' := by
  induction h generalizing s with
  | nil => exact ⟨[], s, rfl, rfl, hbytes, hends⟩
  | @cons w frame ws frames hframe _ ih =>
    rw [List.flatten_cons, List.append_assoc] at hbytes
    obtain ⟨v, s₁, hread, hv, hbytes₁, hends₁⟩ := hframe.whole hends hbytes
    obtain ⟨vs, s₂, hreads, hvs, hbytes₂, hends₂⟩ := ih hends₁ hbytes₁
    refine ⟨v :: vs, s₂, ?_, ?_, hbytes₂, hends₂⟩
    · rw [List.length_cons, readFrames, hread]
      show (readFrames read frames.length s₁).bind _ = _
      rw [hreads]
      rfl
    · rw [List.map_cons, hv, hvs]

/-- One more read. -/
theorem readFrames_succ {n : Nat} {s s₁ s₂ : InputStream UInt8} {vs : List (Option V)}
    {v : Option V} (h : readFrames read n s = some (vs, s₁)) (hread : read s₁ = some (v, s₂)) :
    readFrames read (n + 1) s = some (vs ++ [v], s₂) := by
  induction n generalizing s vs with
  | zero =>
    cases h
    rw [readFrames, hread]
    rfl
  | succ n ih =>
    obtain ⟨⟨v', s'⟩, hfirst, hrest⟩ := Option.bind_eq_some_iff.mp h
    obtain ⟨⟨vs', s''⟩, hvs, heq⟩ := Option.bind_eq_some_iff.mp hrest
    cases heq
    rw [readFrames, hfirst]
    show (readFrames read (n + 1) s').bind _ = _
    rw [ih hvs]
    rfl

/-- A stream of frames delivers their values, in order, when the end of the stream ends the reading.
-/
theorem delivers_of_frames {values : List W} {frames : List Bytes}
    (h : List.Forall₂ (IsFrame read value) values frames)
    (hend : ∀ s, bytes s = [] → ∃ s', read s = some (none, s')) :
    Delivers read value frames values := by
  have hopen : ∀ fd : List (SourceBuf UInt8), Ends (InputStream.create fd) := by
    intro fd htrue
    cases htrue
  constructor
  · intro fd hflat
    have hbytes : bytes (InputStream.create fd) = frames.flatten ++ [] := by
      rw [List.append_nil, ← hflat]
      rfl
    obtain ⟨vs, s, hreads, hvs, hnil, -⟩ := readFrames_whole h (hopen fd) hbytes
    obtain ⟨hbuf, hfd⟩ := List.append_eq_nil_iff.mp hnil
    refine ⟨vs, s, hreads, hvs, hbuf, ?_, hend s hnil⟩
    cases hs : s.fd with
    | nil => rfl
    | cons b fd =>
      rw [hs, flat_cons] at hfd
      exact absurd (List.append_eq_nil_iff.mp hfd).1 b.2
  · intro fd before frame after part hframes hpre hne hflat
    subst hframes
    have hbefore := List.forall₂_take_append _ _ _ h
    have hafter := List.forall₂_drop_append _ _ _ h
    obtain ⟨vs, s, hreads, hvs, hpart, hends⟩ := readFrames_whole hbefore (hopen fd) hflat
    rw [← hpart] at hpre hne
    generalize hdrop : List.drop before.length values = rest at hafter
    cases hafter with
    | cons hframe _ =>
      obtain ⟨s', hread⟩ := hframe.short hends hpre hne
      exact ⟨vs, s', readFrames_succ hreads hread, hvs⟩

/-- What `send_loop` writes. -/
theorem sendLoop_frames {c : Negotiated} {buf : M → Option SndBuf} {sent : M → W} {msgs : List M}
    (h : ∀ m ∈ msgs, ∀ b ∈ buf m, ∀ out ∈ c.compress b, IsFrame read value (sent m) out.bytes) :
    List.Forall₂ (IsFrame read value) ((msgs.map sent).take (sendLoop c buf msgs).length)
      (sendLoop c buf msgs) := by
  induction msgs with
  | nil => exact List.Forall₂.nil
  | cons m queue ih =>
    rw [sendLoop]
    cases hout : (buf m).bind c.compress with
    | none => exact List.Forall₂.nil
    | some out =>
      obtain ⟨b, hb, hcompress⟩ := Option.bind_eq_some_iff.mp hout
      exact List.Forall₂.cons (h m List.mem_cons_self b hb out hcompress)
        (ih fun m' hm' => h m' (List.mem_cons_of_mem m hm'))

/-- The space of the size is in the first chunk, so that only the compressor itself can fail. -/
theorem compress_isSome {c : Negotiated} (hc : c.Inverts) {b : SndBuf} (hsized : b.Sized)
    (hne : b.bytes ≠ []) (h : ∀ comp ∈ c.compressor, (comp.compress 4 b).isSome) :
    (c.compress b).isSome := by
  rw [Negotiated.compress]
  cases hcomp : c.compressor with
  | none => rfl
  | some comp =>
    obtain ⟨zip, hzip⟩ := Option.isSome_iff_exists.mp (h comp hcomp)
    obtain ⟨front, hfront, hspace⟩ := (hc comp hcomp).space hsized hne hzip
    show ((comp.compress 4 b).bind _).isSome
    rw [hzip, Option.bind_some, SndBuf.writeFront, hfront]
    show (if _ then some _ else none : Option SndBuf).isSome
    rw [if_pos (by simpa using hspace)]
    rfl

/-- The send loop sends one buffer for each message that can be marshalled and compressed. -/
theorem sendLoop_length {c : Negotiated} {buf : M → Option SndBuf} {msgs : List M}
    (h : ∀ m ∈ msgs, ((buf m).bind c.compress).isSome) :
    (sendLoop c buf msgs).length = msgs.length := by
  induction msgs with
  | nil => rfl
  | cons m queue ih =>
    obtain ⟨out, hout⟩ := Option.isSome_iff_exists.mp (h m List.mem_cons_self)
    rw [sendLoop, hout]
    show (sendLoop c buf queue).length + 1 = queue.length + 1
    rw [ih fun m' hm' => h m' (List.mem_cons_of_mem m hm')]

end Sequences

/-- Messages with a header and a payload arrive. -/
theorem arrive {M H W : Type} {c : Negotiated} (hc : c.Inverts) {F : FrameType H}
    (hpos : 0 < F.headerSize) {buf : M → Option SndBuf} {value : H × RcvBuf → W} {sent : M → W}
    {plain : M → Bytes}
    (hbuf : ∀ m, ∃ b space, buf m = some b ∧ Holds b space (plain m))
    (hne : ∀ m, plain m ≠ [])
    (hframe : ∀ m, IsFrame (fun s => some (readFrame F s)) value (sent m) (plain m))
    (msgs : List M) : Arrive c buf (readFrameCompressed F c) value sent msgs := by
  constructor
  · intro m _
    obtain ⟨b, _, hb, -⟩ := hbuf m
    rw [hb]
    rfl
  · intro hsome
    apply sendLoop_length
    intro m hm
    obtain ⟨b, _, hb, hholds⟩ := hbuf m
    rw [hb]
    apply compress_isSome hc
    · rw [SndBuf.Sized, hholds.bytes, hholds.size]
    · rw [hholds.bytes]
      exact hne m
    · exact hsome m hm b hb
  · refine delivers_of_frames (sendLoop_frames ?_) fun s hnil => readFrameCompressed_end hpos c hnil
    intro m _ b hb out hout
    obtain ⟨b', _, hb', hholds⟩ := hbuf m
    obtain rfl : b' = b := Option.some.inj (hb'.symm.trans hb)
    cases hcomp : c.compressor with
    | none =>
      have hsame : out = b' := by
        rw [Option.mem_def, Negotiated.compress, hcomp] at hout
        exact (Option.some.inj hout).symm
      -- Without a compressor the frame is read as it is.
      have hread : readFrameCompressed F c = fun s => some (readFrame F s) := by
        funext s
        rw [readFrameCompressed, hcomp]
      rw [hsame, hholds.bytes, hread]
      exact hframe m
    | some comp =>
      have hsized : b'.Sized := by rw [SndBuf.Sized, hholds.bytes, hholds.size]
      -- With one, what was compressed is not empty and inverts.
      obtain ⟨zipped, hbytes, hlt, hunzip⟩ := compress_holds hcomp (hc comp hcomp) hsized
        (by rw [hholds.bytes]; exact hne m) hout
      rw [hholds.bytes] at hunzip
      rw [hbytes]
      exact readCompressed_isFrame hcomp (hframe m) hlt hunzip

/-! ### Requests and responses -/

end Netstar.Proofs.Rpc.Frame
