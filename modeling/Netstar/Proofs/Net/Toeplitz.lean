import Netstar.Spec.Net.Forward
import Netstar.Spec.Net.Toeplitz

/-!
# `Netstar.Proofs.Net.Toeplitz`: what `toeplitz_hash` computes

The bit that the loop shifts in at bit `n` of the data is bit `n + 32` of the key, as long as the
32-bit index `i + 4` does not wrap. Bits are read at `n % 2^35` in general (`readBit`), because the
index of a byte is taken modulo `2^32`. So a loop that ends computes the sum of the windows of
`readBit`, on any data (`returns_iff`).

This is the bitwise definition for data of at most `2^32 - 4` bytes. The last three lengths below
`2^32` read the first bits of the key again, and from `2^32` on the loop does not end.
`toeplitzRight_iff` is the exact condition.
-/

set_option autoImplicit false

namespace Netstar.Proofs.Net

open Netstar.Lib
open Netstar.Spec.Net

/-- The key bit that the loop has in its window for bit `n` of the key. -/
def readBit (key : RssKey) (n : Nat) : Bool := bitAt key.bytes (n % 2 ^ 35)

/-! ### The bits of a byte string -/

/-- A bit of the bytes, by its byte and its place. -/
theorem bitAt_byte (bytes : List UInt8) (i b : Nat) (hb : b < 8) :
    bitAt bytes (8 * i + b) = (bytes.getD i 0).toNat.testBit (7 - b) := by
  have hdiv : (8 * i + b) / 8 = i := by omega
  have hmod : (8 * i + b) % 8 = b := by omega
  rw [bitAt, hdiv, hmod]

/-- Behind the bytes all bits are zero. -/
theorem bitAt_of_length_le {bytes : List UInt8} {n : Nat} (h : 8 * bytes.length ≤ n) :
    bitAt bytes n = false := by
  rw [bitAt, List.getD_eq_default _ _ (by omega)]
  exact Nat.zero_testBit _

/-- The exclusive or of equally long bytes is as long as each. -/
theorem length_xorBytes {x y : List UInt8} (h : x.length = y.length) :
    (xorBytes x y).length = x.length := by
  rw [xorBytes, List.length_zipWith, h, Nat.min_self]

/-- The exclusive or is taken bit by bit. -/
theorem bitAt_xorBytes {x y : List UInt8} (h : x.length = y.length) (n : Nat) :
    bitAt (xorBytes x y) n = (bitAt x n ^^ bitAt y n) := by
  rcases Nat.lt_or_ge (n / 8) x.length with hlt | hge
  · have hy : n / 8 < y.length := h ▸ hlt
    have hxor : n / 8 < (xorBytes x y).length := by rwa [length_xorBytes h]
    simp only [bitAt, List.getD_eq_getElem _ _ hlt, List.getD_eq_getElem _ _ hy,
      List.getD_eq_getElem _ _ hxor]
    simp only [xorBytes, List.getElem_zipWith, UInt8.toNat_xor, Nat.testBit_xor]
  · rw [bitAt_of_length_le (by rw [length_xorBytes h]; omega), bitAt_of_length_le (by omega),
      bitAt_of_length_le (by omega)]
    rfl

/-- The last bit of the last byte is the only one that is set. -/
theorem bitAt_lastBit (m n : Nat) :
    bitAt (List.replicate m 0 ++ [1]) n = decide (n = 8 * m + 7) := by
  rcases Nat.lt_or_ge (n / 8) m with hlt | hge
  · have hzero : (List.replicate m (0 : UInt8) ++ [1]).getD (n / 8) 0 = 0 := by
      rw [List.getD_append _ _ _ _ (by rwa [List.length_replicate]), List.getD_replicate _ hlt]
    rw [bitAt, hzero, decide_eq_false (by omega)]
    exact Nat.zero_testBit _
  rcases Nat.eq_or_lt_of_le hge with heq | hgt
  · have hone : (List.replicate m (0 : UInt8) ++ [1]).getD (n / 8) 0 = 1 := by
      rw [List.getD_append_right _ _ _ _ (by rw [List.length_replicate]; exact hge),
        List.length_replicate, ← heq, Nat.sub_self]
      rfl
    rw [bitAt, hone]
    show (1 : Nat).testBit (7 - n % 8) = _
    rw [Bool.eq_iff_iff, Nat.testBit_one_eq_true_iff_self_eq_zero, decide_eq_true_eq]
    omega
  · rw [bitAt_of_length_le (by simp; omega), decide_eq_false (by omega)]

/-! ### The window at the start -/

/-- Bit `j` of four bytes read as a number, from the top. -/
theorem testBit_be32 {b0 b1 b2 b3 j : Nat} (h1 : b1 < 2 ^ 8) (h2 : b2 < 2 ^ 8) (h3 : b3 < 2 ^ 8) :
    (b0 * 2 ^ 24 + b1 * 2 ^ 16 + b2 * 2 ^ 8 + b3).testBit j =
      if j < 8 then b3.testBit j else if j < 16 then b2.testBit (j - 8)
      else if j < 24 then b1.testBit (j - 16) else b0.testBit (j - 24) := by
  have hnest : b0 * 2 ^ 24 + b1 * 2 ^ 16 + b2 * 2 ^ 8 + b3
      = 2 ^ 8 * (2 ^ 8 * (2 ^ 8 * b0 + b1) + b2) + b3 := by omega
  rw [hnest, Nat.testBit_two_pow_mul_add _ h3, Nat.testBit_two_pow_mul_add _ h2,
    Nat.testBit_two_pow_mul_add _ h1]
  split_ifs <;> first | rfl | omega

/-- The four bytes that `v` is built from are the first window. -/
theorem readBe32_eq_window (bytes : List UInt8) :
    readBe32 bytes 0 = window 32 (bitAt bytes) 0 := by
  have hbyte : ∀ i, (bytes.getD i 0).toNat < 2 ^ 8 := fun i => UInt8.toNat_lt _
  apply window_ext
  intro j hj
  rw [readBe32, BitVec.getMsbD_eq_getLsbD, BitVec.getLsbD_ofNat,
    testBit_be32 (hbyte (0 + 1)) (hbyte (0 + 2)) (hbyte (0 + 3)), decide_eq_true hj,
    decide_eq_true (by omega : 32 - 1 - j < 32), Bool.true_and, Bool.true_and]
  -- The four ranges of the bit are the four bytes.
  have hbit : ∀ i b, j = 8 * i + b → b < 8 →
      bitAt bytes (0 + j) = (bytes.getD i 0).toNat.testBit (7 - b) := by
    rintro i b rfl hb
    rw [Nat.zero_add, bitAt_byte bytes i b hb]
  split_ifs with h8 h16 h24
  · rw [hbit 3 (j - 24) (by omega) (by omega)]
    congr 1
    omega
  · rw [hbit 2 (j - 16) (by omega) (by omega)]
    congr 1
    omega
  · rw [hbit 1 (j - 8) (by omega) (by omega)]
    congr 1
    omega
  · rw [hbit 0 j (by omega) (by omega)]
    congr 1
    omega

/-- The first window of the source is made of the first four bytes of the key. -/
theorem window_readBit_zero (key : RssKey) :
    window 32 (readBit key) 0 = window 32 (bitAt key.bytes) 0 := by
  apply window_ext
  intro j hj
  rw [getMsbD_window _ _ _ hj, readBit, Nat.mod_eq_of_lt (by omega)]

/-! ### The loops -/

/-- One round of the inner loop is one step of the sliding window. -/
theorem toeplitzRound_eq (key : RssKey) (data : List UInt8) {i b : Nat} (hi : i < 2 ^ 32)
    (hb : b < 8) (st : BitVec 32 × BitVec 32) :
    toeplitzRound key data (BitVec.ofNat 32 i) st b
      = slideStep (bitAt data (8 * i + b)) (readBit key (8 * i + b + 32)) st := by
  have hcur : (BitVec.ofNat 32 i).toNat = i := by rw [BitVec.toNat_ofNat, Nat.mod_eq_of_lt hi]
  have hnext : (8 * i + b + 32) % 2 ^ 35 = 8 * (BitVec.ofNat 32 i + 4).toNat + b := by
    rw [BitVec.toNat_add, hcur]
    show _ = 8 * ((i + 4) % 2 ^ 32) + b
    omega
  -- Past the end of the key the source does not read it, and its bits are zero.
  have hread : ((BitVec.ofNat 32 i + 4).toNat < key.bytes.length ∧
        (key.bytes.getD (BitVec.ofNat 32 i + 4).toNat 0).toNat.testBit (7 - b) = true)
      ↔ readBit key (8 * i + b + 32) = true := by
    rw [readBit, hnext, bitAt_byte _ _ b hb, and_iff_right_iff_imp]
    intro hbit
    by_contra hge
    rw [List.getD_eq_default _ _ (by omega)] at hbit
    exact absurd (hbit.symm.trans (Nat.zero_testBit _)) (by decide)
  obtain ⟨hash, v⟩ := st
  simp only [toeplitzRound, slideStep, hcur, bitAt_byte data i b hb, hread]

/-- The state of the loops after `n` bits of the data. -/
def loopState (key : RssKey) (data : List UInt8) (n : Nat) : BitVec 32 × BitVec 32 :=
  (xorWindows 32 (readBit key) (bitAt data) n, window 32 (readBit key) n)

/-- The rounds of the inner loop move the state over the bits of one byte. -/
theorem innerLoop_state (key : RssKey) (data : List UInt8) {i : Nat} (hi : i < 2 ^ 32) :
    (List.range 8).foldl (toeplitzRound key data (BitVec.ofNat 32 i)) (loopState key data (8 * i))
      = loopState key data (8 * (i + 1)) :=
  foldl_slideStep 8 fun _ hb st => toeplitzRound_eq key data hi hb st

/-- From the byte `i` on, the loop ends after the bytes that are left. -/
theorem toeplitzLoop_state (key : RssKey) (data : List UInt8) (hlen : data.length < 2 ^ 32) :
    ∀ m i, i + m = data.length →
      toeplitzLoop key data (m + 1) (BitVec.ofNat 32 i) (loopState key data (8 * i))
        = some (loopState key data (8 * data.length)).1 := by
  intro m
  induction m with
  | zero =>
    intro i hi
    have hi' : i = data.length := by omega
    subst hi'
    rw [toeplitzLoop, BitVec.toNat_ofNat, Nat.mod_eq_of_lt hlen, if_neg (lt_irrefl _)]
  | succ m ih =>
    intro i hi
    rw [toeplitzLoop, BitVec.toNat_ofNat, Nat.mod_eq_of_lt (by omega), if_pos (by omega),
      innerLoop_state key data (by omega)]
    have hnext : BitVec.ofNat 32 i + 1 = BitVec.ofNat 32 (i + 1) := by
      rw [BitVec.ofNat_add]
      rfl
    rw [hnext]
    exact ih (i + 1) (by omega)

/-- More fuel does not change the result. -/
theorem toeplitzLoop_unique (key : RssKey) (data : List UInt8) {h h' : BitVec 32} :
    ∀ fuel fuel' i st, toeplitzLoop key data fuel i st = some h →
      toeplitzLoop key data fuel' i st = some h' → h = h' := by
  intro fuel
  induction fuel with
  | zero => intro fuel' i st hrun; cases hrun
  | succ fuel ih =>
    intro fuel' i st hrun hrun'
    cases fuel' with
    | zero => cases hrun'
    | succ fuel' =>
      rw [toeplitzLoop] at hrun hrun'
      split at hrun
      · rename_i hlt
        rw [if_pos hlt] at hrun'
        exact ih fuel' _ _ hrun hrun'
      · rename_i hge
        rw [if_neg hge] at hrun'
        exact Option.some.inj (hrun.symm.trans hrun')

/-- A 32-bit counter never reaches `2^32`, so the loop does not end. -/
theorem toeplitzLoop_none (key : RssKey) (data : List UInt8) (hlen : 2 ^ 32 ≤ data.length) :
    ∀ fuel i st, toeplitzLoop key data fuel i st = none := by
  intro fuel
  induction fuel with
  | zero => exact fun _ _ => rfl
  | succ fuel ih =>
    intro i st
    rw [toeplitzLoop, if_pos (lt_of_lt_of_le i.isLt hlen)]
    exact ih _ _

/-- The hash of any data is the sum of the windows of the bits that the loop reads. -/
theorem returns_iff (key : RssKey) (data : List UInt8) (h : BitVec 32) :
    ToeplitzReturns key data h ↔ data.length < 2 ^ 32 ∧
      h = xorWindows 32 (readBit key) (bitAt data) (8 * data.length) := by
  have hstart : (0, readBe32 key.bytes 0) = loopState key data (8 * 0) := by
    rw [loopState, readBe32_eq_window, ← window_readBit_zero]
    rfl
  have hrun := fun hlen => toeplitzLoop_state key data hlen data.length 0 (Nat.zero_add _)
  constructor
  · rintro ⟨fuel, hfuel⟩
    rcases Nat.lt_or_ge data.length (2 ^ 32) with hlen | hlen
    · rw [hstart] at hfuel
      exact ⟨hlen, toeplitzLoop_unique key data _ _ _ _ hfuel (hrun hlen)⟩
    · rw [toeplitzLoop_none key data hlen] at hfuel
      cases hfuel
  · rintro ⟨hlen, rfl⟩
    exact ⟨data.length + 1, by rw [hstart]; exact hrun hlen⟩

/-! ### The definition -/

/-- The key bits under the windows are those that the loop reads. -/
def BitsAgree (key : RssKey) (length : Nat) : Prop :=
  ∀ j, j + 1 < 8 * (length - (2 ^ 32 - 4)) → bitAt key.bytes (2 ^ 35 + j) = bitAt key.bytes j

/-- When the bits agree, the key is read as it is. -/
theorem readBit_eq_of_bitsAgree {key : RssKey} {length n : Nat} (h : BitsAgree key length)
    (hlen : length < 2 ^ 32) (hn : n + 1 < 8 * length + 32) :
    readBit key n = bitAt key.bytes n := by
  rcases Nat.lt_or_ge n (2 ^ 35) with hlt | hge
  · rw [readBit, Nat.mod_eq_of_lt hlt]
  · have hwrap : n % 2 ^ 35 = n - 2 ^ 35 := by omega
    have hsplit : 2 ^ 35 + (n - 2 ^ 35) = n := by omega
    have hagree := h (n - 2 ^ 35) (by omega)
    rw [readBit, hwrap, ← hagree, hsplit]

/-- When the bits agree, the source returns the hash of the definition. -/
theorem returns_toeplitzDef {key : RssKey} {data : List UInt8}
    (h : BitsAgree key data.length) (hlen : data.length < 2 ^ 32) :
    ToeplitzReturns key data (toeplitzDef key data) :=
  (returns_iff key data _).mpr ⟨hlen,
    xorWindows_congr (fun _ hj => (readBit_eq_of_bitsAgree h hlen hj).symm) fun _ _ => rfl⟩

/-- The definition is linear in the data. -/
theorem toeplitzDef_xorBytes (key : RssKey) {x y : List UInt8} (h : x.length = y.length) :
    toeplitzDef key (xorBytes x y) = toeplitzDef key x ^^^ toeplitzDef key y := by
  rw [toeplitzDef, toeplitzDef, toeplitzDef, ← h, ← xorWindows_xor, length_xorBytes h]
  exact xorWindows_congr (fun _ _ => rfl) fun i _ => bitAt_xorBytes h i

/-- When the data ends in the only set bit, the hash and the definition are one window each. -/
theorem bitsAgree_of_lastBit {key : RssKey} {m : Nat}
    (h : ToeplitzReturns key (List.replicate m 0 ++ [1])
      (toeplitzDef key (List.replicate m 0 ++ [1]))) : BitsAgree key (m + 1) := by
  obtain ⟨hlen, heq⟩ := (returns_iff key _ _).mp h
  have hbits : 8 * (List.replicate m (0 : UInt8) ++ [1]).length = (8 * m + 7) + 1 := by
    rw [List.length_append, List.length_replicate]
    rfl
  have hm : m + 1 < 2 ^ 32 := by
    rw [List.length_append, List.length_replicate] at hlen
    exact hlen
  rw [toeplitzDef, hbits] at heq
  intro j hj
  have hwindow : 8 * m + 7 ≤ 2 ^ 35 + j ∧ 2 ^ 35 + j - (8 * m + 7) < 32 := by omega
  have hsplit : 8 * m + 7 + (2 ^ 35 + j - (8 * m + 7)) = 2 ^ 35 + j := by omega
  have hwrap : (2 ^ 35 + j) % 2 ^ 35 = j := by omega
  have hbit := eq_of_xorWindows_single (j := 2 ^ 35 + j - (8 * m + 7))
    (fun i hi => by rw [bitAt_lastBit, decide_eq_false (by omega)])
    (by rw [bitAt_lastBit, decide_eq_true rfl]) heq hwindow.2
  rwa [hsplit, readBit, hwrap] at hbit

/-! ### The hash of a connection -/

/-- `toeplitzBit` with the index of a byte that is not bounded. -/
theorem toeplitzBit_eq (key pre rest : List UInt8) (byte : UInt8) {b : Nat} (hb : b < 8)
    (st : BitVec 32 × BitVec 32) :
    toeplitzBit key pre.length byte st b
      = slideStep (bitAt (pre ++ byte :: rest) (8 * pre.length + b))
          (bitAt key (8 * pre.length + b + 32)) st := by
  have hdata : bitAt (pre ++ byte :: rest) (8 * pre.length + b) = byte.toNat.testBit (7 - b) := by
    rw [bitAt_byte _ _ b hb, List.getD_append_right _ _ _ _ (le_refl _), Nat.sub_self]
    rfl
  have hkey : bitAt key (8 * pre.length + b + 32)
      = (key.getD (pre.length + 4) 0).toNat.testBit (7 - b) := by
    rw [← bitAt_byte _ _ b hb]
    congr 1
    omega
  obtain ⟨hash, v⟩ := st
  simp only [toeplitzBit, slideStep, hdata, hkey]

/-- The bytes `rest` of the data `pre ++ rest`, from the state after the bytes `pre`. -/
theorem toeplitzHash_state (key : List UInt8) :
    ∀ rest pre : List UInt8,
      (rest.zipIdx pre.length).foldl (fun st x => (List.range 8).foldl (toeplitzBit key x.2 x.1) st)
          (xorWindows 32 (bitAt key) (bitAt (pre ++ rest)) (8 * pre.length),
            window 32 (bitAt key) (8 * pre.length))
        = (xorWindows 32 (bitAt key) (bitAt (pre ++ rest)) (8 * (pre ++ rest).length),
            window 32 (bitAt key) (8 * (pre ++ rest).length)) := by
  intro rest
  induction rest with
  | nil => exact fun pre => by rw [List.append_nil]; rfl
  | cons byte rest ih =>
    intro pre
    have hinner := foldl_slideStep (k := bitAt key) 8 fun b hb st =>
      toeplitzBit_eq key pre rest byte hb st
    have hstep := ih (pre ++ [byte])
    rw [List.append_assoc, List.length_append] at hstep
    rw [List.zipIdx_cons, List.foldl_cons, hinner]
    exact hstep

/-- The hash over unbounded indices is the definition, so `toeplitz_hash` returns it for every key
of a connection or a packet. -/
theorem returns_toeplitzHash (key : RssKey) {data : ForwardHash}
    (h : data.length ≤ 2 ^ 32 - 4) :
    ToeplitzReturns key data (toeplitzHash key.bytes data) := by
  have hstate := toeplitzHash_state key.bytes data []
  have hdef : toeplitzHash key.bytes data = toeplitzDef key data := by
    rw [toeplitzHash, readBe32_eq_window]
    exact congrArg Prod.fst hstate
  rw [hdef]
  exact returns_toeplitzDef (fun j hj => absurd hj (by omega)) (by omega)

/-! ### The exact condition -/

/-- `toeplitz_hash` computes the definition on all data of a length, and is linear there, exactly
when the loop ends and the key bits that the wrapped index reads again are those that belong
there. Up to `2^32 - 4` bytes no bit is read again. -/
theorem toeplitzRight_iff (key : RssKey) (length : Nat) :
    ToeplitzRight key length ↔ length < 2 ^ 32 ∧
      ∀ j, j + 1 < 8 * (length - (2 ^ 32 - 4)) →
        bitAt key.bytes (2 ^ 35 + j) = bitAt key.bytes j := by
  constructor
  · rintro ⟨hdef, -⟩
    have hlen : length < 2 ^ 32 := by
      have h := ((returns_iff key _ _).mp (hdef (List.replicate length 0) List.length_replicate)).1
      rwa [List.length_replicate] at h
    refine ⟨hlen, ?_⟩
    cases length with
    | zero => exact fun j hj => absurd hj (by omega)
    | succ m =>
      refine bitsAgree_of_lastBit (hdef _ ?_)
      rw [List.length_append, List.length_replicate]
      rfl
  · rintro ⟨hlen, hagree⟩
    have hdef : ∀ data, data.length = length → ToeplitzReturns key data (toeplitzDef key data) := by
      rintro data rfl
      exact returns_toeplitzDef hagree hlen
    refine ⟨hdef, fun x y hx hy => ?_⟩
    have hxy : x.length = y.length := hx.trans hy.symm
    refine ⟨toeplitzDef key x, toeplitzDef key y, hdef x hx, hdef y hy, ?_⟩
    rw [← toeplitzDef_xorBytes key hxy]
    exact hdef _ ((length_xorBytes hxy).trans hx)

/-- With a key that starts with a set bit, the last byte of `2^32 - 3` bytes reads that bit again
as the bit behind the key's end. -/
theorem not_toeplitzReturns_wrapped :
    ¬ ToeplitzReturns ⟨[0x80, 0, 0, 0], by decide⟩ (List.replicate (2 ^ 32 - 4) 0 ++ [1])
      (toeplitzDef ⟨[0x80, 0, 0, 0], by decide⟩ (List.replicate (2 ^ 32 - 4) 0 ++ [1])) := by
  intro h
  have hagree := bitsAgree_of_lastBit h 0 (by decide)
  have hpast : bitAt [0x80, 0, 0, 0] (2 ^ 35 + 0) = false := bitAt_of_length_le (by decide)
  rw [hpast] at hagree
  exact absurd hagree (by decide)

end Netstar.Proofs.Net
