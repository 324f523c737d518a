import Netstar.Proofs.Core.InputStream
import Netstar.Spec.Rpc.NegotiationFrame

/-!
# `Netstar.Proofs.Rpc.NegotiationFrame`: what the negotiation accepts

`readFeatures_spec` is about the loop at any offset: it never reads outside, and it succeeds exactly if
the rest of the bytes is a list of records. `record_front` and `record_of_front` are its two directions
for one record. The frame around the records is read by two `read_exactly`, whose theorems are those of
`Netstar.Proofs.Core.InputStream`.
-/

set_option autoImplicit false

namespace Netstar.Proofs.Rpc.NegotiationFrame

open Netstar.Lib
open Netstar.Spec.Core
open Netstar.Spec.Rpc
open Netstar.Spec.Rpc.NegotiationFrame
open Netstar.Proofs.Core.InputStream

/-! ### Records -/

/-- The bytes of records. -/
def recordsBytes (rs : List FeatureRecord) : Bytes := (rs.map FeatureRecord.bytes).flatten

/-- The entries that the records stand for. -/
def entriesOf (rs : List FeatureRecord) : List (ProtocolFeatures × Bytes) :=
  rs.map fun r => (r.number, r.data)

/-- A 32-bit value is read back from its little-endian bytes. -/
theorem readLe32_encode {v : Nat} (h : v < 2 ^ 32) : (readLe32 (LittleEndian.encode 4 v)).val = v := by
  rw [readLe32, LittleEndian.decode_encode 4 v h]
  exact Nat.mod_eq_of_lt h

/-- A number of four bytes gives the bytes back. -/
theorem encode_readLe32 {bs : Bytes} (h : bs.length = 4) :
    LittleEndian.encode 4 (readLe32 bs).val = bs := by
  have hlt := LittleEndian.decode_lt bs
  rw [h] at hlt
  have hval : (readLe32 bs).val = LittleEndian.decode bs := Nat.mod_eq_of_lt hlt
  rw [hval, ← h]
  exact LittleEndian.encode_decode bs

/-- A feature record is as long as its head and its data. -/
theorem record_length (r : FeatureRecord) : r.bytes.length = 8 + r.data.length := by
  rw [FeatureRecord.bytes, List.length_append, List.length_append, LittleEndian.length_encode,
    LittleEndian.length_encode]

/-- What the parser sees in front of a record. -/
theorem record_front {t rest : Bytes} {r : FeatureRecord} (h : t = r.bytes ++ rest) :
    readLe32 (t.take 4) = r.number ∧ (readLe32 ((t.drop 4).take 4)).val = r.data.length ∧
      (t.drop 8).take r.data.length = r.data ∧ t.drop (8 + r.data.length) = rest := by
  have hcut : t = LittleEndian.encode 4 r.number.val ++
      (LittleEndian.encode 4 r.data.length ++ (r.data ++ rest)) := by
    rw [h, FeatureRecord.bytes]
    simp only [List.append_assoc]
  have hdrop : t.drop 4 = LittleEndian.encode 4 r.data.length ++ (r.data ++ rest) := by
    rw [hcut, List.drop_left' (LittleEndian.length_encode _ _)]
  have hdrop' : t.drop 8 = r.data ++ rest := by
    rw [show 8 = 4 + 4 from rfl, ← List.drop_drop, hdrop,
      List.drop_left' (LittleEndian.length_encode _ _)]
  refine ⟨?_, ?_, ?_, ?_⟩
  · rw [hcut, LittleEndian.take_encode_append]
    exact Fin.ext (readLe32_encode r.number.isLt)
  · rw [hdrop, LittleEndian.take_encode_append]
    exact readLe32_encode r.fits
  · rw [hdrop', List.take_left]
  · rw [← List.drop_drop, hdrop', List.drop_left]

/-- What the parser sees is a record. -/
theorem record_of_front {t : Bytes} (hlen : 8 ≤ t.length)
    (hdata : (readLe32 ((t.drop 4).take 4)).val ≤ t.length - 8) :
    ∃ r : FeatureRecord, r.number = readLe32 (t.take 4) ∧
      r.data = (t.drop 8).take (readLe32 ((t.drop 4).take 4)).val ∧
      t = r.bytes ++ t.drop (8 + (readLe32 ((t.drop 4).take 4)).val) := by
  have hlt := (readLe32 ((t.drop 4).take 4)).isLt
  have hsize : ((t.drop 8).take (readLe32 ((t.drop 4).take 4)).val).length =
      (readLe32 ((t.drop 4).take 4)).val := by
    rw [List.length_take, List.length_drop]
    omega
  refine ⟨⟨readLe32 (t.take 4), (t.drop 8).take (readLe32 ((t.drop 4).take 4)).val, ?_⟩, rfl, rfl, ?_⟩
  · rw [hsize]
    exact hlt
  · have hnumber : LittleEndian.encode 4 (readLe32 (t.take 4)).val = t.take 4 :=
      encode_readLe32 (by rw [List.length_take]; omega)
    have hfield : LittleEndian.encode 4 (readLe32 ((t.drop 4).take 4)).val = (t.drop 4).take 4 :=
      encode_readLe32 (by rw [List.length_take, List.length_drop]; omega)
    rw [FeatureRecord.bytes]
    dsimp only
    rw [hsize, hnumber, hfield]
    have hsplit : t = t.take 4 ++ ((t.drop 4).take 4 ++ (t.drop 4).drop 4) := by
      rw [List.take_append_drop, List.take_append_drop]
    calc t = t.take 4 ++ ((t.drop 4).take 4 ++ (t.drop 4).drop 4) := hsplit
      _ = t.take 4 ++ ((t.drop 4).take 4 ++
          ((t.drop 8).take (readLe32 ((t.drop 4).take 4)).val ++
            (t.drop 8).drop (readLe32 ((t.drop 4).take 4)).val)) := by
        rw [List.drop_drop, List.take_append_drop]
      _ = _ := by
        rw [List.drop_drop]
        simp only [List.append_assoc]

/-! ### The loop -/

/-- A load inside the frame gives the bytes there. -/
theorem load_eq {extra : Bytes} {p n : Nat} (h : p + n ≤ extra.length) :
    load extra p n = some ((extra.drop p).take n) := if_pos h

/-- What a load gives are the bytes at its place. -/
theorem of_load {extra bs : Bytes} {p n : Nat} (h : load extra p n = some bs) :
    bs = (extra.drop p).take n :=
  (Option.some.inj (Option.ite_none_right_eq_some.mp h).2).symm

/-- Bytes that are left begin with a record, if they are records. -/
theorem records_cons {t : Bytes} {rs : List FeatureRecord} (h : t = recordsBytes rs) (hne : t ≠ []) :
    ∃ r rs', rs = r :: rs' ∧ t = r.bytes ++ recordsBytes rs' := by
  cases rs with
  | nil => exact absurd h hne
  | cons r rs => exact ⟨r, rs, rfl, h⟩

/-- Bytes that are no records end in a closed connection, and give no map of their own. -/
theorem closed_spec {t : Bytes} {map : NegotiationFrame.FeatureMap} {log : Option String}
    (hno : ∀ rs, t ≠ recordsBytes rs) :
    Received.closedError log ≠ .outside ∧ ∀ m, Received.closedError log = .map m ↔
      ∃ rs, t = recordsBytes rs ∧ m = map.fill (entriesOf rs) := by
  refine ⟨fun h => (nomatch h), fun m => ⟨fun h => (nomatch h), ?_⟩⟩
  rintro ⟨rs, heq, -⟩
  exact absurd heq (hno rs)

/-- The loop never reads outside, and it succeeds exactly on records. -/
theorem readFeatures_spec {extra : Bytes} {p : Nat} {map : NegotiationFrame.FeatureMap} (hp : p ≤ extra.length) :
    readFeatures extra p map ≠ .outside ∧ ∀ m, readFeatures extra p map = .map m ↔
      ∃ rs, extra.drop p = recordsBytes rs ∧ m = map.fill (entriesOf rs) := by
  have hleft : (extra.drop p).length = extra.length - p := List.length_drop
  fun_induction readFeatures extra p map with
  -- The induction follows the loop. At the end of the buffer, no record is left.
  | case1 map =>
    refine ⟨fun h => (nomatch h), fun m => ?_⟩
    rw [List.drop_length]
    constructor
    · intro h
      cases h
      exact ⟨[], rfl, rfl⟩
    · rintro ⟨rs, hrs, rfl⟩
      cases rs with
      | nil => rfl
      | cons r rs =>
        have hlen := congrArg List.length hrs
        rw [show recordsBytes (r :: rs) = r.bytes ++ recordsBytes rs from rfl, List.length_append,
          record_length, List.length_nil] at hlen
        omega
  -- Less than a header is left, and a record has at least its header.
  | case2 p map last hne hlast =>
    apply closed_spec
    intro rs hrs
    have hlt : (extra.length : Int) - p < 8 := hlast
    obtain ⟨r, rs', -, hr⟩ := records_cons hrs fun hnil => by
      rw [hnil, List.length_nil] at hleft
      omega
    have hlen := congrArg List.length hr
    rw [List.length_append, record_length] at hlen
    omega
  -- The length field promises more bytes than there are.
  | case3 p map last hne hlast number len hl hn fLen hbig =>
    apply closed_spec
    intro rs hrs
    have hge : ¬ (extra.length : Int) - p < 8 := hlast
    have hgt : (fLen : Int) > extra.length - p - 8 := hbig
    obtain ⟨r, rs', -, hr⟩ := records_cons hrs fun hnil => by
      rw [hnil, List.length_nil] at hleft
      omega
    have hfield : fLen = r.data.length := by
      show (readLe32 len).val = _
      rw [of_load hl, ← List.drop_drop]
      exact (record_front hr).2.1
    have hlen := congrArg List.length hr
    rw [List.length_append, record_length] at hlen
    omega
  | case4 p map last hne hlast number len hl hn fLen hfits data hd ih =>
    have hge : ¬ (extra.length : Int) - p < 8 := hlast
    have hle : ¬ (fLen : Int) > extra.length - p - 8 := hfits
    have hnext : p + 8 + fLen ≤ extra.length := by omega
    obtain ⟨hinside, hexact⟩ := ih hnext List.length_drop
    refine ⟨hinside, fun m => (hexact m).trans ?_⟩
    have hnumber := of_load hn
    have hlen := of_load hl
    have hdata := of_load hd
    rw [← List.drop_drop] at hlen hdata
    have hrest : extra.drop (p + 8 + fLen) = (extra.drop p).drop (8 + fLen) := by
      rw [List.drop_drop, Nat.add_assoc]
    rw [hrest]
    constructor
    · rintro ⟨rs, hrs, rfl⟩
      have hfield : (readLe32 (((extra.drop p).drop 4).take 4)).val = fLen := by rw [← hlen]
      obtain ⟨r, hrn, hrd, hsplit⟩ := @record_of_front (extra.drop p) (by omega)
        (by rw [hfield]; omega)
      rw [hfield] at hrd hsplit
      refine ⟨r :: rs, ?_, ?_⟩
      · rw [hrs] at hsplit
        exact hsplit
      · rw [hnumber, hdata, ← hrn, ← hrd]
        rfl
    · rintro ⟨rs, hrs, rfl⟩
      obtain ⟨r, rs', rfl, hr⟩ := records_cons hrs fun hnil => by
        rw [hnil, List.length_nil] at hleft
        omega
      obtain ⟨hrn, hrl, hrd, hrr⟩ := record_front hr
      have hfield : fLen = r.data.length := by
        show (readLe32 len).val = _
        rw [hlen]
        exact hrl
      refine ⟨rs', ?_, ?_⟩
      · rw [hfield]
        exact hrr
      · rw [hnumber, hrn, hdata, hfield, hrd]
        rfl
  -- In the last two cases a load would fail, but the checks above keep it inside.
  | case5 p map last hne hlast number len hl hn fLen hfits hd =>
    have hge : ¬ (extra.length : Int) - p < 8 := hlast
    have hle : ¬ (fLen : Int) > extra.length - p - 8 := hfits
    rw [load_eq (by omega)] at hd
    cases hd
  | case6 p map last hne hlast hno =>
    have hge : ¬ (extra.length : Int) - p < 8 := hlast
    exact (hno _ _ (load_eq (by omega)) (load_eq (by omega))).elim

/-! ### The frame -/

/-- The bytes of a new stream are its input. -/
theorem input_eq (fd : List (SourceBuf UInt8)) : bytes (InputStream.create fd) = input fd := rfl

/-- The magic has 8 bytes. -/
theorem length_rpcMagic : rpcMagic.length = 8 := rfl

/-- A frame whose announced bytes are there. -/
theorem receive_frame {fd : List (SourceBuf UInt8)} {extra rest : Bytes}
    (hlen : extra.length < 2 ^ 32)
    (hinput : input fd = rpcMagic ++ LittleEndian.encode 4 extra.length ++ extra ++ rest) :
    ∃ s, receiveNegotiationFrame (.create fd) = (readFeatures extra 0 .empty, s) ∧
      bytes s = rest := by
  have hends : Ends (InputStream.create fd) := fun h => nomatch h
  obtain ⟨s, hneg, hrest, hends'⟩ := @readExactly_front _ (.create fd) headerSize
    (rpcMagic ++ LittleEndian.encode 4 extra.length) (extra ++ rest) hends
    (by rw [input_eq, hinput]; simp only [List.append_assoc])
    (by rw [List.length_append, LittleEndian.length_encode]; rfl)
  obtain ⟨s', hextra, hrest', -⟩ := @readExactly_front _ s extra.length extra rest hends' hrest rfl
  have hfield : readLe 4 8 (rpcMagic ++ LittleEndian.encode 4 extra.length) = extra.length := by
    rw [readLe, List.drop_left' length_rpcMagic,
      List.take_of_length_le (by rw [LittleEndian.length_encode]),
      LittleEndian.decode_encode 4 _ hlen]
  have hheader : (rpcMagic ++ LittleEndian.encode 4 extra.length).length = headerSize := by
    rw [List.length_append, LittleEndian.length_encode]
    rfl
  have hmagic : (rpcMagic ++ LittleEndian.encode 4 extra.length).take 8 = rpcMagic :=
    List.take_left' length_rpcMagic
  refine ⟨s', ?_, hrest'⟩
  rw [receiveNegotiationFrame, hneg]
  dsimp only
  rw [if_neg (by rw [hheader]; simp), if_neg (by rw [hmagic]; simp), hfield, hextra]
  exact if_neg (by simp)

/-- A header whose magic matches is the magic and a length. -/
theorem header_eq {neg : Bytes} (hlen : neg.length = headerSize) (hmagic : neg.take 8 = rpcMagic) :
    neg = rpcMagic ++ LittleEndian.encode 4 (readLe 4 8 neg) ∧ readLe 4 8 neg < 2 ^ 32 := by
  have hfield : (neg.drop 8).length = 4 := by
    rw [List.length_drop, hlen]
    rfl
  have htake : (neg.drop 8).take 4 = neg.drop 8 := List.take_of_length_le (Nat.le_of_eq hfield)
  have hencode := LittleEndian.encode_decode (neg.drop 8)
  have hlt := LittleEndian.decode_lt (neg.drop 8)
  rw [hfield] at hencode hlt
  rw [readLe, htake, hencode, ← hmagic, List.take_append_drop]
  exact ⟨rfl, hlt⟩

/-- The announced bytes are there, or the connection is closed. -/
theorem receive_cases (fd : List (SourceBuf UInt8)) :
    (∃ extra rest, extra.length < 2 ^ 32 ∧
      input fd = rpcMagic ++ LittleEndian.encode 4 extra.length ++ extra ++ rest) ∨
    ∃ log, (receiveNegotiationFrame (.create fd)).1 = .closedError log := by
  obtain ⟨neg, hread⟩ : ∃ neg, InputStream.readExactly false headerSize fd [] = neg := ⟨_, rfl⟩
  obtain ⟨extra, hread'⟩ : ∃ extra,
      InputStream.readExactly neg.2.eof (readLe 4 8 neg.1) neg.2.fd neg.2.buf = extra := ⟨_, rfl⟩
  have hneg : ReadsExactly false headerSize (input fd) neg := by
    rw [← hread]
    exact @readExactly_spec _ headerSize fd [] false
  have hextra : ReadsExactly neg.2.eof (readLe 4 8 neg.1) (bytes neg.2) extra := by
    rw [← hread']
    exact readExactly_spec
  simp only [receiveNegotiationFrame, InputStream.create, hread, hread']
  by_cases hheader : neg.1.length ≠ headerSize
  · rw [if_pos hheader]
    exact .inr ⟨_, rfl⟩
  rw [if_neg hheader]
  rw [not_not] at hheader
  by_cases hmagic : neg.1.take 8 ≠ rpcMagic
  · rw [if_pos hmagic]
    exact .inr ⟨_, rfl⟩
  rw [if_neg hmagic]
  rw [not_not] at hmagic
  by_cases hshort : extra.1.length ≠ readLe 4 8 neg.1
  · rw [if_pos hshort]
    exact .inr ⟨_, rfl⟩
  rw [not_not] at hshort
  -- both reads have got what they asked for
  obtain ⟨hsplit, hlt⟩ := header_eq hheader hmagic
  refine .inl ⟨extra.1, bytes extra.2, by rw [hshort]; exact hlt, ?_⟩
  have hfirst : input fd = neg.1 ++ bytes neg.2 := by
    have hresult := hneg.result
    have hrest := hneg.rest
    by_cases hle : headerSize ≤ (input fd).length
    · rw [if_pos hle] at hresult hrest
      rw [hresult, hrest, List.take_append_drop]
    · rw [if_neg hle] at hresult
      rw [hresult] at hheader
      cases hheader
  have hsecond : bytes neg.2 = extra.1 ++ bytes extra.2 := by
    have hresult := hextra.result
    have hrest := hextra.rest
    by_cases hle : readLe 4 8 neg.1 ≤ (bytes neg.2).length
    · rw [if_pos hle] at hresult hrest
      rw [hresult, hrest, List.take_append_drop]
    · rw [if_neg hle] at hresult
      rw [hresult, List.length_nil] at hshort
      exact absurd (Nat.zero_le _) (hshort ▸ hle)
  rw [hfirst, hsecond, hshort, ← hsplit, List.append_assoc]

/-! ### Both ends -/

/-- The first record of a feature is the first entry of its key. -/
theorem firstRecord_eq (rs : List FeatureRecord) (k : ProtocolFeatures) :
    firstRecord rs k = SortedMap.firstOf k (entriesOf rs) := by
  rw [firstRecord, SortedMap.firstOf, entriesOf, List.find?_map, Option.map_map]
  rfl

/-- A map that was filled from records has the first of each feature. -/
theorem eq_fill_iff {map : NegotiationFrame.FeatureMap} {rs : List FeatureRecord} :
    map = SortedMap.empty.fill (entriesOf rs) ↔ ∀ k, map.lookup k = firstRecord rs k := by
  constructor
  · rintro rfl k
    rw [SortedMap.lookup_fill_empty, firstRecord_eq]
  · intro h
    refine SortedMap.ext_lookup fun k => ?_
    rw [h, SortedMap.lookup_fill_empty, firstRecord_eq]

/-- What the receiver does with a stream. -/
theorem accepts (fd : List (SourceBuf UInt8)) : Accepts fd := by
  have hframe : ∀ extra rest, extra.length < 2 ^ 32 →
      input fd = rpcMagic ++ LittleEndian.encode 4 extra.length ++ extra ++ rest →
      (receiveNegotiationFrame (.create fd)).1 ≠ .outside ∧
        ∀ map : NegotiationFrame.FeatureMap, (receiveNegotiationFrame (.create fd)).1 = .map map ↔
          ∃ rs, extra = recordsBytes rs ∧ ∀ k, map.lookup k = firstRecord rs k := by
    intro extra rest hlen hinput
    obtain ⟨s, hreceive, -⟩ := receive_frame hlen hinput
    obtain ⟨hinside, hexact⟩ := @readFeatures_spec extra 0 SortedMap.empty (Nat.zero_le _)
    rw [hreceive]
    refine ⟨hinside, fun map => (hexact map).trans (exists_congr fun rs => ?_)⟩
    rw [List.drop_zero, eq_fill_iff]
  constructor
  · rcases receive_cases fd with ⟨extra, rest, hlen, hinput⟩ | ⟨log, hclosed⟩
    · exact (hframe extra rest hlen hinput).1
    · rw [hclosed]
      exact fun h => nomatch h
  · intro map
    constructor
    · intro hmap
      rcases receive_cases fd with ⟨extra, rest, hlen, hinput⟩ | ⟨log, hclosed⟩
      · obtain ⟨rs, rfl, hlookup⟩ := ((hframe extra rest hlen hinput).2 map).mp hmap
        exact ⟨rs, rest, ⟨hlen, hinput⟩, hlookup⟩
      · rw [hclosed] at hmap
        cases hmap
    · rintro ⟨rs, rest, ⟨hlen, hinput⟩, hlookup⟩
      exact ((hframe _ rest hlen hinput).2 map).mpr ⟨rs, rfl, hlookup⟩
  · intro extra rest hlen hinput
    obtain ⟨s, hreceive, hrest⟩ := receive_frame hlen hinput
    rw [hreceive]
    exact hrest

/-- The sum of the sizes, as long as it fits. -/
theorem extraLen_toNat {features : NegotiationFrame.FeatureMap}
    (hfits : (features.entries.map recordSize).sum < 2 ^ 32) :
    (extraLen features).toNat = (features.entries.map recordSize).sum := by
  have hfold : ∀ (es : List (ProtocolFeatures × Bytes)) (sum : UInt32),
      sum.toNat + (es.map recordSize).sum < 2 ^ 32 →
      (es.foldl (fun sum e => UInt32.ofNat (sum.toNat + recordSize e)) sum).toNat =
        sum.toNat + (es.map recordSize).sum := by
    intro es
    induction es with
    | nil => exact fun _ _ => rfl
    | cons e es ih =>
      intro sum hlt
      rw [List.map_cons, List.sum_cons] at hlt ⊢
      have hadd : (UInt32.ofNat (sum.toNat + recordSize e)).toNat = sum.toNat + recordSize e :=
        UInt32.toNat_ofNat_of_lt' (show _ < 2 ^ 32 by omega)
      rw [List.foldl_cons, ih _ (by rw [hadd]; omega), hadd, Nat.add_assoc]
  have hsum := hfold features.entries 0 (by simpa using hfits)
  rw [extraLen, hsum]
  exact Nat.zero_add _

/-- The entries of a map as records. -/
theorem exists_records {es : List (ProtocolFeatures × Bytes)}
    (hfits : (es.map recordSize).sum < 2 ^ 32) :
    ∃ rs, entriesOf rs = es ∧ recordsBytes rs = (es.map recordBytes).flatten ∧
      (recordsBytes rs).length = (es.map recordSize).sum := by
  induction es with
  | nil => exact ⟨[], rfl, rfl, rfl⟩
  | cons e es ih =>
    rw [List.map_cons, List.sum_cons, recordSize] at hfits
    obtain ⟨rs, hentries, hbytes, hlen⟩ := ih (by omega)
    refine ⟨⟨e.1, e.2, by omega⟩ :: rs, ?_, ?_, ?_⟩
    · rw [entriesOf, List.map_cons, ← entriesOf, hentries]
    · rw [List.map_cons, List.flatten_cons, ← hbytes]
      rfl
    · show (FeatureRecord.bytes _ ++ recordsBytes rs).length = _
      rw [List.length_append, record_length, hlen, List.map_cons, List.sum_cons, recordSize]

/-- A feature map that fits the frame is read back, whatever the cuts. -/
theorem roundTrips {features : NegotiationFrame.FeatureMap}
    (hfits : (features.entries.map recordSize).sum < 2 ^ 32) : RoundTrips features := by
  obtain ⟨rs, hentries, hbytes, hlen⟩ := exists_records hfits
  have hextra := extraLen_toNat hfits
  rw [← hlen] at hextra hfits
  refine ⟨rpcMagic ++ LittleEndian.encode 4 (recordsBytes rs).length ++ recordsBytes rs, ?_, ?_⟩
  · rw [sendNegotiationFrame, ← hbytes, hextra, if_pos]
    rw [List.length_append, List.length_append, LittleEndian.length_encode, length_rpcMagic,
      headerSize]
  · intro fd rest hinput
    obtain ⟨s, hreceive, hrest⟩ := receive_frame hfits hinput
    refine ⟨s, ?_, hrest⟩
    rw [hreceive]
    have hmap : readFeatures (recordsBytes rs) 0 SortedMap.empty = .map features := by
      refine ((readFeatures_spec (Nat.zero_le _)).2 features).mpr ⟨rs, rfl, ?_⟩
      rw [hentries, SortedMap.fill_entries]
    rw [hmap]

/-- What is sent arrives, and the receiver accepts exactly the frames of the grammar. -/
theorem negotiation_frame (features : NegotiationFrame.FeatureMap)
    (hfits : (features.entries.map recordSize).sum < 2 ^ 32) (fd : List (SourceBuf UInt8)) :
    RoundTrips features ∧ Accepts fd :=
  ⟨roundTrips hfits, accepts fd⟩

/-- A client with one compressor. -/
theorem negotiation_frame_lz4 :
    RoundTrips ⟨[(0, [0x4c, 0x5a, 0x34]), (1, [])], by decide⟩ ∧ Accepts [] :=
  negotiation_frame ⟨[(0, [0x4c, 0x5a, 0x34]), (1, [])], by decide⟩ (by decide) []

end Netstar.Proofs.Rpc.NegotiationFrame
