import Netstar.Spec.Mica.Response

/-!
# `Netstar.Proofs.Mica.Wire`: the records of a batch, written and read back

The client writes a batch with `append_frags`, and it reads a batch with the loop of `receive`.
The two share no code. `ofBytes_toBytes_append` is the round trip of one header,
`lengths_of_kvLengthVec` shows that the two lengths survive in one 32-bit word, and
`opaque_split` does the same for the index and the epoch. `parseRecords_batch` walks a batch of
any length: the loop is at the start of a record, and the record it reads ends where the next one
starts, because both sides round the lengths up to 8.

`receiveRecords_batch` is the round trip of a whole packet, seen through the accessors of
`mica_response`.
-/

set_option autoImplicit false

namespace Netstar.Proofs.Mica

open Netstar.Lib
open Netstar.Spec.Mica

/-! ### One header -/

/-- A header has its fixed size on the wire. -/
@[simp] theorem length_toBytes (h : RequestHeader) : h.toBytes.length = requestHeaderSize := by
  simp [RequestHeader.toBytes, requestHeaderSize]

/-- A field of `n` bytes that lies behind `pre` is read back. -/
theorem decode_field {w : Nat} (n : Nat) (hw : w = 8 * n) (x : BitVec w) {b : List UInt8}
    (pre rest : List UInt8) (hb : b = pre ++ (LittleEndian.encode n x.toNat ++ rest)) :
    BitVec.ofNat w (LittleEndian.decode ((b.drop pre.length).take n)) = x := by
  subst hw
  have hlt : x.toNat < 256 ^ n := by
    have h := x.isLt
    rwa [Nat.pow_mul] at h
  rw [hb, List.drop_left, LittleEndian.take_encode_append, LittleEndian.decode_encode n _ hlt,
    BitVec.ofNat_toNat, BitVec.setWidth_eq]

/-- The header at the start of its own bytes. -/
theorem ofBytes_toBytes_append (h : RequestHeader) (rest : List UInt8) :
    RequestHeader.ofBytes (h.toBytes ++ rest) = h := by
  obtain ⟨op, res, r0, kv, kh, oid, r1⟩ := h
  rw [RequestHeader.ofBytes, RequestHeader.mk.injEq]
  simp only [RequestHeader.toBytes]
  -- What stands in front of each of the five fields that have more than one byte.
  let b2 : List UInt8 := [op, res]
  let b4 := b2 ++ LittleEndian.encode 2 r0.toNat
  let b8 := b4 ++ LittleEndian.encode 4 kv.toNat
  let b16 := b8 ++ LittleEndian.encode 8 kh.toNat
  let b20 := b16 ++ LittleEndian.encode 4 oid.toNat
  refine ⟨rfl, rfl, ?_, ?_, ?_, ?_, ?_⟩
  · exact decode_field 2 rfl r0 b2 _ (by simp only [List.append_assoc]; rfl)
  · exact decode_field 4 rfl kv b4 _ (by simp only [List.append_assoc, b4]; rfl)
  · exact decode_field 8 rfl kh b8 _ (by simp only [List.append_assoc, b8, b4]; rfl)
  · exact decode_field 4 rfl oid b16 _ (by simp only [List.append_assoc, b16, b8, b4]; rfl)
  · exact decode_field 4 rfl r1 b20 _ (by simp only [List.append_assoc, b20, b16, b8, b4]; rfl)

/-- The two lengths in one word. -/
theorem lengths_of_kvLengthVec (hd : RequestHeader) (keyLen valLen : Nat) (hk : keyLen < 256)
    (hv : valLen < 2 ^ 24) (h : hd.kvLengthVec = BitVec.ofNat 32 ((keyLen <<< 24) ||| valLen)) :
    hd.keyLen = keyLen ∧ hd.valLen = valLen := by
  have hor : (keyLen <<< 24) ||| valLen = 2 ^ 24 * keyLen + valLen := by
    rw [Nat.shiftLeft_eq, Nat.mul_comm, Nat.two_pow_add_eq_or_of_lt hv]
  have hmod : (2 ^ 24 * keyLen + valLen) % 2 ^ 32 = 2 ^ 24 * keyLen + valLen :=
    Nat.mod_eq_of_lt (by omega)
  constructor
  · rw [RequestHeader.keyLen, h, hor, BitVec.toNat_ushiftRight, BitVec.toNat_ofNat, hmod,
      Nat.shiftRight_eq_div_pow]
    omega
  · have hmask : (0xffffff#32).toNat = 2 ^ 24 - 1 := rfl
    rw [RequestHeader.valLen, h, hor, BitVec.toNat_and, BitVec.toNat_ofNat, hmod, hmask,
      Nat.and_two_pow_sub_one_eq_mod]
    omega

/-- The opaque value holds the descriptor's index above its epoch. -/
theorem toNat_currentOpaque {ι : Type} (d : RequestDescriptor ι) :
    d.currentOpaque.toNat = 2 ^ 16 * d.rdIndex.toNat + d.epoch.toNat := by
  have hi := d.rdIndex.isLt
  have he := d.epoch.isLt
  rw [RequestDescriptor.currentOpaque, BitVec.toNat_or, BitVec.toNat_shiftLeft,
    BitVec.toNat_setWidth, BitVec.toNat_setWidth,
    Nat.mod_eq_of_lt (by omega : d.rdIndex.toNat < 2 ^ 32),
    Nat.mod_eq_of_lt (by omega : d.epoch.toNat < 2 ^ 32), Nat.shiftLeft_eq,
    Nat.mod_eq_of_lt (by omega), Nat.mul_comm, ← Nat.two_pow_add_eq_or_of_lt he]

/-- The index and the epoch in one word. -/
theorem opaque_split {ι : Type} (hd : RequestHeader) (d : RequestDescriptor ι)
    (h : hd.opaqueId = d.currentOpaque) : hd.rdIdx = d.rdIndex.toNat ∧ hd.epoch = d.epoch := by
  have he := d.epoch.isLt
  have hnat : hd.opaqueId.toNat = 2 ^ 16 * d.rdIndex.toNat + d.epoch.toNat := by
    rw [h, toNat_currentOpaque]
  constructor
  · rw [RequestHeader.rdIdx, BitVec.toNat_ushiftRight, hnat, Nat.shiftRight_eq_div_pow]
    omega
  · have hmask : (0xffff#32).toNat = 2 ^ 16 - 1 := rfl
    apply BitVec.eq_of_toNat_eq
    rw [RequestHeader.epoch, BitVec.toNat_setWidth, BitVec.toNat_and, hnat, hmask,
      Nat.and_two_pow_sub_one_eq_mod]
    omega

/-! ### The walk over a batch -/

variable {ι : Type}

/-- The header of the descriptor gives the length of what the descriptor writes. -/
def HeaderLength (d : RequestDescriptor ι) : Prop :=
  totalResponseLength d.rqHd = d.appendFrags.length

/-- A request is at least as long as its header. -/
theorem le_length_appendFrags (d : RequestDescriptor ι) :
    requestHeaderSize ≤ d.appendFrags.length := by
  simp [RequestDescriptor.appendFrags]

/-- No request is empty on the wire. -/
theorem length_appendFrags_pos (d : RequestDescriptor ι) : 0 < d.appendFrags.length :=
  Nat.lt_of_lt_of_le (by decide) (le_length_appendFrags d)

/-- The loop reads back the records of a batch that starts at its offset. -/
theorem parseRecords_batch (ds : List (RequestDescriptor ι)) (hds : ∀ d ∈ ds, HeaderLength d)
    (pre : List UInt8) (fuel : Nat) (hfuel : ds.length ≤ fuel) :
    parseRecords (pre ++ ds.flatMap RequestDescriptor.appendFrags) fuel pre.length =
      .ok (ds.map fun d => ⟨d.rqHd, d.appendFrags⟩,
        (pre ++ ds.flatMap RequestDescriptor.appendFrags).length) := by
  induction ds generalizing pre fuel with
  | nil => cases fuel <;> simp [parseRecords]
  | cons d ds ih =>
    obtain ⟨fuel, rfl⟩ : ∃ m, fuel = m + 1 := ⟨fuel - 1, by simp at hfuel; omega⟩
    have hd : totalResponseLength d.rqHd = d.appendFrags.length := hds d (by simp)
    have hsplit : pre ++ (d :: ds).flatMap RequestDescriptor.appendFrags =
        pre ++ d.appendFrags ++ ds.flatMap RequestDescriptor.appendFrags := by simp
    have hlen := le_length_appendFrags d
    have hpos := length_appendFrags_pos d
    have hget : getHeader (pre ++ (d :: ds).flatMap RequestDescriptor.appendFrags) pre.length
        requestHeaderSize = some d.rqHd.toBytes := by
      rw [hsplit, getHeader, if_pos (by simp; omega), List.append_assoc, List.drop_left,
        RequestDescriptor.appendFrags, List.append_assoc, List.append_assoc,
        List.take_left' (length_toBytes _)]
    have hbytes : RequestHeader.ofBytes d.rqHd.toBytes = d.rqHd := by
      simpa using ofBytes_toBytes_append d.rqHd []
    have hshare : share (pre ++ (d :: ds).flatMap RequestDescriptor.appendFrags) pre.length
        d.appendFrags.length = d.appendFrags := by
      rw [hsplit, share, List.append_assoc, List.drop_left, List.take_left]
    have hrest := ih (fun d' h' => hds d' (by simp [h'])) (pre ++ d.appendFrags) fuel
      (by simpa using hfuel)
    rw [← hsplit, List.length_append] at hrest
    rw [parseRecords, if_pos (by simp; omega), hget]
    simp only [hbytes, hd, hshare, hrest]
    rw [if_pos (by simp)]
    simp

/-- A record is never empty, so a batch has no more records than bytes. -/
theorem length_le_length_flatMap (ds : List (RequestDescriptor ι)) :
    ds.length ≤ (ds.flatMap RequestDescriptor.appendFrags).length := by
  induction ds with
  | nil => simp
  | cons d ds ih =>
    have hpos := length_appendFrags_pos d
    rw [List.flatMap_cons, List.length_append, List.length_cons]
    omega

/-! ### A batch of requests -/

/-- The requests of the wire format: the lengths are in range, and the buffers are padded to a
multiple of 8 bytes. These are the conditions that `new_action` asserts. -/
structure Padded (r : Request) : Prop where
  key_ge : 8 ≤ r.keyLen
  key_lt : r.keyLen < 2 ^ 8
  val_ge : r.valLen = 0 ∨ 8 ≤ r.valLen
  val_lt : r.valLen < 2 ^ 24
  key_size : r.key.length = roundup8 r.keyLen
  val_size : r.val.length = roundup8 r.valLen

/-- What a user of the response sees of a record, and the descriptor that the record names. -/
structure RecordView where
  operation : Option UInt8
  keyLen : Option Nat
  valLen : Option Nat
  rdIdx : Nat
  epoch : BitVec 16
  key : Option (List UInt8)
  valTb : Option (List UInt8)
  deriving DecidableEq, Repr

/-- The view through `mica_response`. The key is read with a type of `get_key_len` bytes. -/
def viewRecord (r : ResponseRecord) : RecordView where
  operation := MicaResponse.getOperation r.pkt
  keyLen := MicaResponse.getKeyLen r.pkt
  valLen := MicaResponse.getValLen r.pkt
  rdIdx := r.rh.rdIdx
  epoch := r.rh.epoch
  key := (MicaResponse.getKeyLen r.pkt).bind (MicaResponse.getKey r.pkt)
  valTb := MicaResponse.getValTb r.pkt

/-- The view that the sender of the request `r` in the descriptor `d` expects. -/
def viewRequest (d : RequestDescriptor ι) (r : Request) : RecordView where
  operation := some r.op.toByte
  keyLen := some r.keyLen
  valLen := some r.valLen
  rdIdx := d.rdIndex.toNat
  epoch := d.epoch
  key := some (r.key.take r.keyLen)
  valTb := some r.val

/-- Rounding up to a multiple of 8 gives no less. -/
theorem le_roundup8 (n : Nat) : n ≤ roundup8 n := by
  unfold roundup8
  omega

/-- A new action sets the lengths of the key and of the value. -/
theorem lengths_newAction (hash : List UInt8 → BitVec 64) (d : RequestDescriptor ι) (r : Request)
    (hr : Padded r) :
    (d.newAction hash r).rqHd.keyLen = r.keyLen ∧ (d.newAction hash r).rqHd.valLen = r.valLen :=
  lengths_of_kvLengthVec _ _ _ hr.key_lt hr.val_lt rfl

/-- The header of a new action gives the length of its request. -/
theorem headerLength_newAction (hash : List UInt8 → BitVec 64) (d : RequestDescriptor ι)
    (r : Request) (hr : Padded r) : HeaderLength (d.newAction hash r) := by
  obtain ⟨hk, hv⟩ := lengths_newAction hash d r hr
  rw [HeaderLength, totalResponseLength, hk, hv, RequestDescriptor.appendFrags]
  simp [RequestDescriptor.newAction, RequestDescriptor.setupRequestHeader, hr.key_size,
    hr.val_size, Nat.add_assoc]

/-- The header at the start of what a descriptor writes. -/
theorem header_appendFrags (d : RequestDescriptor ι) :
    MicaResponse.header d.appendFrags = some d.rqHd := by
  rw [MicaResponse.header, getHeader, if_pos (by simpa using le_length_appendFrags d),
    List.drop_zero, RequestDescriptor.appendFrags,
    List.append_assoc, List.take_left' (length_toBytes _), Option.map_some]
  congr 1
  simpa using ofBytes_toBytes_append d.rqHd []

/-- One record, seen through the accessors. -/
theorem viewRecord_newAction (hash : List UInt8 → BitVec 64) (d : RequestDescriptor ι)
    (r : Request) (hr : Padded r) :
    viewRecord ⟨(d.newAction hash r).rqHd, (d.newAction hash r).appendFrags⟩ =
      viewRequest d r := by
  obtain ⟨hk, hv⟩ := lengths_newAction hash d r hr
  obtain ⟨hi, he⟩ := opaque_split (d.newAction hash r).rqHd d rfl
  have hhd := header_appendFrags (d.newAction hash r)
  have hfrags : (d.newAction hash r).appendFrags =
      (d.newAction hash r).rqHd.toBytes ++ (r.key ++ r.val) := by
    simp [RequestDescriptor.appendFrags, RequestDescriptor.newAction,
      RequestDescriptor.setupRequestHeader]
  have hbytes := length_toBytes (d.newAction hash r).rqHd
  have hle := le_roundup8 r.keyLen
  have hkey : MicaResponse.getKey (d.newAction hash r).appendFrags r.keyLen =
      some (r.key.take r.keyLen) := by
    have hfit : r.keyLen ≤ r.key.length := by rw [hr.key_size]; exact hle
    rw [MicaResponse.getKey, getHeader, hfrags, if_pos (by simp; omega), List.drop_left' hbytes,
      List.take_append_of_le_length hfit]
  have hval : MicaResponse.getValTb (d.newAction hash r).appendFrags = some r.val := by
    rw [MicaResponse.getValTb, hhd, Option.map_some, hk, hv, share, hfrags, ← List.append_assoc,
      List.drop_left' (by simp [hr.key_size]), ← hr.val_size, List.take_length]
  have hop : (d.newAction hash r).rqHd.operation = r.op.toByte := rfl
  simp [viewRecord, viewRequest, MicaResponse.getOperation, MicaResponse.getKeyLen,
    MicaResponse.getValLen, hhd, hk, hv, hi, he, hkey, hval, hop]

/-- `receive` walks a batch to its end and reads back the requests in order. The descriptors `d`
are arbitrary, so their index and epoch are. -/
theorem receiveRecords_batch (hash : List UInt8 → BitVec 64) (batchHeader : List UInt8)
    (hheader : batchHeader.length = requestBatchHeaderSize)
    (rs : List (RequestDescriptor ι × Request)) (hrs : ∀ x ∈ rs, Padded x.2) :
    ∃ records,
      receiveRecords
          (batchHeader ++ rs.flatMap fun x => (x.1.newAction hash x.2).appendFrags) =
        .ok (records,
          (batchHeader ++ rs.flatMap fun x => (x.1.newAction hash x.2).appendFrags).length) ∧
      records.map viewRecord = rs.map fun x => viewRequest x.1 x.2 := by
  have hflat : (rs.flatMap fun x => (x.1.newAction hash x.2).appendFrags) =
      (rs.map fun x => x.1.newAction hash x.2).flatMap RequestDescriptor.appendFrags := by
    rw [List.flatMap_map]
  refine ⟨(rs.map fun x => x.1.newAction hash x.2).map fun d => ⟨d.rqHd, d.appendFrags⟩, ?_, ?_⟩
  · rw [receiveRecords, hflat, ← hheader]
    apply parseRecords_batch
    · intro d hd
      obtain ⟨x, hx, rfl⟩ := List.mem_map.mp hd
      exact headerLength_newAction hash x.1 x.2 (hrs x hx)
    · have hle := length_le_length_flatMap (rs.map fun x => x.1.newAction hash x.2)
      rw [List.length_append]
      omega
  · rw [List.map_map, List.map_map]
    apply List.map_congr_left
    intro x hx
    exact viewRecord_newAction hash x.1 x.2 (hrs x hx)

/-- Two requests, one of them without a value, in descriptors with other indices and epochs. -/
theorem receiveRecords_batch_two :
    let hd : RequestHeader := ⟨0, 0, 0, 0, 0, 0, 0⟩
    let d₁ : RequestDescriptor Nat := { RequestDescriptor.create 3 hd with epoch := 7 }
    let d₂ : RequestDescriptor Nat := { RequestDescriptor.create 2047 hd with epoch := 65535 }
    let r₁ : Request := ⟨.kSet, 10, List.replicate 16 5, 9, List.replicate 16 6⟩
    let r₂ : Request := ⟨.kGet, 8, List.replicate 8 4, 0, []⟩
    Padded r₁ ∧ Padded r₂ ∧
    ∃ records,
      receiveRecords (List.replicate 48 0 ++
          [(d₁, r₁), (d₂, r₂)].flatMap fun x => (x.1.newAction (fun _ => 0) x.2).appendFrags) =
        .ok (records, 136) ∧
      records.map viewRecord = [viewRequest d₁ r₁, viewRequest d₂ r₂] := by
  intro hd d₁ d₂ r₁ r₂
  have h₁ : Padded r₁ := ⟨by decide, by decide, by decide, by decide, by decide, by decide⟩
  have h₂ : Padded r₂ := ⟨by decide, by decide, by decide, by decide, by decide, by decide⟩
  refine ⟨h₁, h₂, ?_⟩
  exact receiveRecords_batch (fun _ => 0) (List.replicate 48 0) (by decide) [(d₁, r₁), (d₂, r₂)]
    (by simp [h₁, h₂])

end Netstar.Proofs.Mica
