import Netstar.Spec.Memcached.Item

/-!
# `Netstar.Proofs.Memcached.Item`: what an item reads back

The layout of a new item is the key, then the prefix, then the value, each written over what is there
already. `getElem?_layout` says which field a byte comes from. So the value always reads back, and the key
and the prefix do exactly when no later field is written over them (`kept_iff`). Fields of at most 248
bytes are apart from each other.
-/

set_option autoImplicit false

namespace Netstar.Proofs.Memcached

open Netstar.Spec.Memcached

variable {hash : Bytes → UInt64} {insertion : Insertion} {version : UInt64} {serial : Nat}

/-! ### Bytes -/

/-- `memcpy` inside an array changes the bytes of its range. -/
theorem getElem?_memcpy {data bytes : Bytes} {offset : Nat} (h : offset + bytes.length ≤ data.length)
    (i : Nat) : (memcpy data offset bytes)[i]? =
      if offset ≤ i ∧ i < offset + bytes.length then bytes[i - offset]? else data[i]? := by
  have hlen : (data.take offset).length = offset := by
    rw [List.length_take]
    omega
  rw [memcpy, List.append_assoc]
  by_cases hlow : i < offset
  · rw [List.getElem?_append_left (by omega), List.getElem?_take_of_lt hlow, if_neg (by omega)]
  · rw [List.getElem?_append_right (by omega), hlen]
    by_cases hhigh : i < offset + bytes.length
    · rw [List.getElem?_append_left (by omega), if_pos (by omega)]
    · rw [List.getElem?_append_right (by omega), List.getElem?_drop, if_neg (by omega)]
      congr 1
      omega

/-- `memcpy` inside an array keeps its length. -/
theorem length_memcpy {data bytes : Bytes} {offset : Nat} (h : offset + bytes.length ≤ data.length) :
    (memcpy data offset bytes).length = data.length := by
  rw [memcpy, List.length_append, List.length_append, List.length_take, List.length_drop]
  omega

/-- Reading a range of the memory gives the bytes that lie in it. -/
theorem getElem?_readAt (data : Bytes) (offset n i : Nat) :
    (readAt data offset n)[i]? = if i < n then data[offset + i]? else none := by
  rw [readAt, List.getElem?_take, List.getElem?_drop]

/-- The overlap has the same bytes. -/
theorem leaves_iff {bytes written : Bytes} {offset : Nat} : Leaves bytes offset written ↔
    ∀ i, offset + i < bytes.length → i < written.length → bytes[offset + i]? = written[i]? := by
  constructor
  · rintro (⟨rest, h⟩ | ⟨rest, h⟩) i hi hw
    · rw [← h, List.getElem?_append_left (by rw [List.length_drop]; omega), List.getElem?_drop]
    · rw [← List.getElem?_drop, ← h, List.getElem?_append_left hw]
  · intro h
    have hoverlap : ∀ n, n ≤ written.length → n ≤ bytes.length - offset →
        (bytes.drop offset).take n = written.take n := by
      intro n hn hn'
      apply List.ext_getElem?
      intro i
      rw [List.getElem?_take, List.getElem?_take, List.getElem?_drop]
      split
      · exact h i (by omega) (by omega)
      · rfl
    rcases Nat.le_total (bytes.length - offset) written.length with hle | hle
    · left
      rw [List.prefix_iff_eq_take, List.length_drop, ← hoverlap _ hle (Nat.le_refl _),
        List.take_of_length_le (by rw [List.length_drop])]
    · right
      rw [List.prefix_iff_eq_take, hoverlap _ (Nat.le_refl _) hle, List.take_length]

/-- From 249 on the aligned size is 0. -/
theorem alignUpByte_toNat (n : UInt8) :
    (alignUpByte n).toNat = if n.toNat ≤ 248 then alignUp n.toNat else 0 := by
  have hall : ∀ m : Fin 256, (alignUpByte (UInt8.ofNat m)).toNat =
      if m.val ≤ 248 then alignUp m.val else 0 := by
    decide +kernel
  have hn := hall ⟨n.toNat, n.toNat_lt⟩
  rw [UInt8.ofNat_toNat] at hn
  exact hn

/-- The byte-wide rounding gives at most what the rounding over the integers gives. -/
theorem alignUpByte_le (n : UInt8) : (alignUpByte n).toNat ≤ alignUp n.toNat := by
  rw [alignUpByte_toNat]
  split
  · exact Nat.le_refl _
  · exact Nat.zero_le _

/-! ### The layout -/

section

variable (insertion)

/-- The stored size of the key, a byte, is at most the key's length. -/
theorem keySize_le : insertion.keySize.toNat ≤ insertion.key.length := by
  rw [Insertion.keySize, UInt8.toNat_ofNat']
  exact Nat.mod_le _ _

/-- The stored size of the prefix, a byte, is at most the prefix's length. -/
theorem asciiPrefixSize_le : insertion.asciiPrefixSize.toNat ≤ insertion.asciiPrefix.length := by
  rw [Insertion.asciiPrefixSize, UInt8.toNat_ofNat']
  exact Nat.mod_le _ _

/-- The fields are written inside the object. -/
theorem layout_fits :
    insertion.keySize.toNat ≤ insertion.size - sizeofItem ∧
      insertion.prefixAt + insertion.asciiPrefixSize.toNat ≤ insertion.size - sizeofItem ∧
      insertion.valueAt + insertion.data.length ≤ insertion.size - sizeofItem := by
  have hkey := keySize_le insertion
  have hpre := asciiPrefixSize_le insertion
  have hkey' := alignUpByte_le insertion.keySize
  have hpre' := alignUpByte_le insertion.asciiPrefixSize
  simp only [alignUp] at hkey' hpre'
  simp only [Insertion.size, Insertion.prefixAt, Insertion.valueAt, alignUp]
  omega

/-- The field that a byte of a new item comes from. -/
theorem getElem?_layout (i : Nat) : insertion.layout[i]? =
    if insertion.valueAt ≤ i ∧ i < insertion.valueAt + insertion.data.length then
      insertion.data[i - insertion.valueAt]?
    else if insertion.prefixAt ≤ i ∧ i < insertion.prefixAt + insertion.asciiPrefixSize.toNat then
      insertion.asciiPrefix[i - insertion.prefixAt]?
    else if i < insertion.keySize.toNat then insertion.key[i]?
    else (List.replicate (insertion.size - sizeofItem) (0 : UInt8))[i]? := by
  obtain ⟨hkey, hpre, hvalue⟩ := layout_fits insertion
  have hkeyLen : (insertion.key.take insertion.keySize.toNat).length = insertion.keySize.toNat := by
    rw [List.length_take, Nat.min_eq_left (keySize_le insertion)]
  have hpreLen : (insertion.asciiPrefix.take insertion.asciiPrefixSize.toNat).length =
      insertion.asciiPrefixSize.toNat := by
    rw [List.length_take, Nat.min_eq_left (asciiPrefixSize_le insertion)]
  have hzero : (List.replicate (insertion.size - sizeofItem) (0 : UInt8)).length =
      insertion.size - sizeofItem := List.length_replicate
  -- each field is written into an array that is as long as the object
  have hfirst : (memcpy (List.replicate (insertion.size - sizeofItem) (0 : UInt8)) 0
      (insertion.key.take insertion.keySize.toNat)).length =
      (List.replicate (insertion.size - sizeofItem) (0 : UInt8)).length :=
    length_memcpy (by omega)
  have hsecond : (memcpy (memcpy (List.replicate (insertion.size - sizeofItem) (0 : UInt8)) 0
      (insertion.key.take insertion.keySize.toNat)) insertion.prefixAt
      (insertion.asciiPrefix.take insertion.asciiPrefixSize.toNat)).length =
      (memcpy (List.replicate (insertion.size - sizeofItem) (0 : UInt8)) 0
        (insertion.key.take insertion.keySize.toNat)).length :=
    length_memcpy (by omega)
  rw [Insertion.layout, getElem?_memcpy (by omega), getElem?_memcpy (by omega),
    getElem?_memcpy (by omega), hkeyLen, hpreLen]
  simp only [Nat.zero_le, Nat.zero_add, Nat.sub_zero, true_and]
  congr 1
  split
  · rw [List.getElem?_take_of_lt (by omega)]
  · split
    · rw [List.getElem?_take_of_lt (by omega)]
    · rfl

end

/-! ### What a new item reads -/

/-- A key of at most 255 bytes has its length as stored size. -/
theorem keySize_toNat (h : insertion.key.length ≤ 255) :
    insertion.keySize.toNat = insertion.key.length := by
  rw [Insertion.keySize, UInt8.toNat_ofNat']
  exact Nat.mod_eq_of_lt (by omega)

/-- A prefix of at most 255 bytes has its length as stored size. -/
theorem asciiPrefixSize_toNat (h : insertion.asciiPrefix.length ≤ 255) :
    insertion.asciiPrefixSize.toNat = insertion.asciiPrefix.length := by
  rw [Insertion.asciiPrefixSize, UInt8.toNat_ofNat']
  exact Nat.mod_eq_of_lt (by omega)

/-- Bytes are read back if the layout has them in their range. -/
theorem readAt_layout_eq {offset : Nat} {bytes : Bytes}
    (h : ∀ i < bytes.length, insertion.layout[offset + i]? = bytes[i]?) :
    readAt insertion.layout offset bytes.length = bytes := by
  apply List.ext_getElem?
  intro i
  rw [getElem?_readAt]
  split
  · rename_i hi
    exact h i hi
  · rename_i hi
    exact (List.getElem?_eq_none (by omega)).symm

/-- The value is written last, so it always reads back. -/
theorem create_value : (Item.create hash insertion version serial).value = insertion.data := by
  have hsize : (UInt32.ofNat insertion.data.length).toNat = insertion.data.length :=
    UInt32.toNat_ofNat_of_lt' insertion.data_lt
  show readAt insertion.layout insertion.valueAt (UInt32.ofNat insertion.data.length).toNat = _
  rw [hsize]
  apply readAt_layout_eq
  intro i hi
  rw [getElem?_layout, if_pos (by omega), Nat.add_sub_cancel_left]

/-- The key read back from a new item is the stored key of its insertion. -/
theorem create_key_eq : (Item.create hash insertion version serial).key = insertion.storedKey := rfl

/-- A stored key is shorter than 256 bytes. -/
theorem create_key_lt : (Item.create hash insertion version serial).key.length < 256 := by
  have hlt := insertion.keySize.toNat_lt
  rw [create_key_eq, Insertion.storedKey, readAt, List.length_take]
  omega

/-- The key and the prefix read back exactly when they are kept. -/
theorem kept_iff (hkey : insertion.key.length ≤ 255) (hpre : insertion.asciiPrefix.length ≤ 255) :
    insertion.Kept ↔ (Item.create hash insertion version serial).key = insertion.key ∧
      (Item.create hash insertion version serial).asciiPrefix = insertion.asciiPrefix := by
  have hkeySize := keySize_toNat hkey
  have hpreSize := asciiPrefixSize_toNat hpre
  have hat : insertion.prefixAt ≤ insertion.valueAt := Nat.le_add_right _ _
  have hkeyRead : (Item.create hash insertion version serial).key =
      readAt insertion.layout 0 insertion.key.length := by
    rw [create_key_eq, Insertion.storedKey, hkeySize]
  have hpreRead : (Item.create hash insertion version serial).asciiPrefix =
      readAt insertion.layout insertion.prefixAt insertion.asciiPrefix.length := by
    rw [← hpreSize]
    rfl
  rw [hkeyRead, hpreRead]
  constructor
  · -- The value was written last, and the prefix before it: a byte of the key is one of theirs or its
    -- own.
    rintro ⟨-, -, hkp, hkv, hpv⟩
    rw [leaves_iff] at hkp hkv hpv
    refine ⟨readAt_layout_eq fun i hi => ?_, readAt_layout_eq fun i hi => ?_⟩
    · rw [getElem?_layout, hpreSize, hkeySize, Nat.zero_add]
      split
      · rename_i hv
        have hsame := hkv (i - insertion.valueAt) (by omega) (by omega)
        rw [Nat.add_sub_cancel' hv.1] at hsame
        exact hsame.symm
      · split
        · rename_i hp
          have hsame := hkp (i - insertion.prefixAt) (by omega) (by omega)
          rw [Nat.add_sub_cancel' hp.1] at hsame
          exact hsame.symm
        · rfl
    · rw [getElem?_layout, hpreSize]
      split
      · rename_i hv
        have hsame := hpv (insertion.prefixAt + i - insertion.valueAt) (by omega) (by omega)
        rw [← hsame]
        congr 1
        omega
      · rw [if_pos (by omega), Nat.add_sub_cancel_left]
  · -- Where two fields lie on each other, both read back the byte that is there.
    rintro ⟨hk, hp⟩
    have hkeyAt : ∀ i < insertion.key.length, insertion.layout[i]? = insertion.key[i]? := by
      intro i hi
      have hread := getElem?_readAt insertion.layout 0 insertion.key.length i
      rw [hk, if_pos hi, Nat.zero_add] at hread
      exact hread.symm
    have hpreAt : ∀ i < insertion.asciiPrefix.length,
        insertion.layout[insertion.prefixAt + i]? = insertion.asciiPrefix[i]? := by
      intro i hi
      have hread := getElem?_readAt insertion.layout insertion.prefixAt insertion.asciiPrefix.length i
      rw [hp, if_pos hi] at hread
      exact hread.symm
    have hvalueAt : ∀ i < insertion.data.length,
        insertion.layout[insertion.valueAt + i]? = insertion.data[i]? := by
      intro i hi
      rw [getElem?_layout, if_pos (by omega), Nat.add_sub_cancel_left]
    refine ⟨hkey, hpre, leaves_iff.mpr fun i hi hw => ?_, leaves_iff.mpr fun i hi hw => ?_,
      leaves_iff.mpr fun i hi hw => ?_⟩
    · rw [← hkeyAt _ hi, hpreAt i hw]
    · rw [← hkeyAt _ hi, hvalueAt i hw]
    · rw [← hpreAt _ hi, ← hvalueAt i hw]
      congr 1
      omega

/-- When the fields are kept apart, the key is read back as it was given. -/
theorem create_key (h : insertion.Kept) :
    (Item.create hash insertion version serial).key = insertion.key :=
  ((kept_iff h.key_le h.prefix_le).mp h).1

/-- When the fields are kept apart, the prefix is read back as it was given. -/
theorem create_asciiPrefix (h : insertion.Kept) :
    (Item.create hash insertion version serial).asciiPrefix = insertion.asciiPrefix :=
  ((kept_iff h.key_le h.prefix_le).mp h).2

/-- A new item has the size that its insertion was allocated with. -/
theorem create_size (hkey : insertion.key.length ≤ 255) (hpre : insertion.asciiPrefix.length ≤ 255) :
    (Item.create hash insertion version serial).size = insertion.size := by
  show sizeofItem + alignUp insertion.keySize.toNat + alignUp insertion.asciiPrefixSize.toNat +
    (UInt32.ofNat insertion.data.length).toNat = _
  rw [keySize_toNat hkey, asciiPrefixSize_toNat hpre, UInt32.toNat_ofNat_of_lt' insertion.data_lt]
  rfl

/-- A field that begins behind the end of another one is not written over it. -/
theorem leaves_of_le {bytes written : Bytes} {offset : Nat} (h : bytes.length ≤ offset) :
    Leaves bytes offset written := by
  rw [Leaves, List.drop_of_length_le h]
  exact .inl List.nil_prefix

/-- Keys and prefixes of at most 248 bytes are kept. -/
theorem kept_of_short (hkey : insertion.key.length ≤ 248) (hpre : insertion.asciiPrefix.length ≤ 248) :
    insertion.Kept := by
  have hkeySize : insertion.keySize.toNat = insertion.key.length := keySize_toNat (by omega)
  have hpreSize : insertion.asciiPrefixSize.toNat = insertion.asciiPrefix.length :=
    asciiPrefixSize_toNat (by omega)
  have hprefixAt : insertion.key.length ≤ insertion.prefixAt := by
    rw [Insertion.prefixAt, alignUpByte_toNat, hkeySize, if_pos hkey, alignUp]
    omega
  have hvalueAt : insertion.asciiPrefix.length ≤ insertion.valueAt - insertion.prefixAt := by
    rw [Insertion.valueAt, Insertion.prefixAt, Nat.add_sub_cancel_left, alignUpByte_toNat, hpreSize,
      if_pos hpre, alignUp]
    omega
  have hat : insertion.prefixAt ≤ insertion.valueAt := Nat.le_add_right _ _
  exact ⟨by omega, by omega, leaves_of_le hprefixAt, leaves_of_le (hprefixAt.trans hat),
    leaves_of_le hvalueAt⟩

end Netstar.Proofs.Memcached
