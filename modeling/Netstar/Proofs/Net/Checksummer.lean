import Netstar.Lib.OnesComplement
import Netstar.Lib.Result
import Netstar.Spec.Net.Checksummer

/-!
# `Netstar.Proofs.Net.Checksummer`: the checksum of the pieces is the checksum of the string

Modulo 65535 a word of eight bytes is the sum of its four 16-bit words, and a byte counts 256 times or
once, by the parity of its position. So each call of `sum` adds the weight of its bytes, whatever the
cut (`SumCall.run_eq` and `added_same`), and `get` folds the sum to the checksum (`checksumGet_spec`).

After an odd number of bytes `sum` reads the first byte of the memory before it looks at the length. A
piece without bytes has no first byte. The length then goes from 0 to `2 ^ 64 - 1`, and the loops go on
outside the memory.
-/

set_option autoImplicit false

namespace Netstar.Proofs.Net.Checksummer

open Netstar.Lib
open Netstar.Lib.LittleEndian (encode decode)
open Netstar.Lib.OnesComplement
open Netstar.Spec.Net
open Netstar.Spec.Net.Checksummer

/-! ### The loops of `sum` -/

/-- Two bytes make a word in network order. -/
theorem toNat_word (b0 b1 : UInt8) : decode [b1, b0] = weight false [b0, b1] := by
  simp only [decode, weight, Bool.not_false, Bool.false_eq_true, if_true, if_false]
  omega

/-- A word of eight bytes counts like its four words of two bytes. -/
theorem decode_eight_same (b0 b1 b2 b3 b4 b5 b6 b7 : UInt8) :
    Same (decode [b7, b6, b5, b4, b3, b2, b1, b0]) (weight false [b0, b1, b2, b3, b4, b5, b6, b7]) := by
  have hsplit : decode [b7, b6, b5, b4, b3, b2, b1, b0] =
      2 ^ (16 * 3) * decode [b1, b0] + (2 ^ (16 * 2) * decode [b3, b2] +
        (2 ^ (16 * 1) * decode [b5, b4] + decode [b7, b6])) := by
    simp only [decode]
    omega
  have hweight : weight false [b0, b1, b2, b3, b4, b5, b6, b7] =
      decode [b1, b0] + (decode [b3, b2] + (decode [b5, b4] + decode [b7, b6])) := by
    simp only [decode, weight, Bool.not_false, Bool.not_true, Bool.false_eq_true, if_true, if_false]
    omega
  rw [hsplit, hweight]
  exact (mul_same 3).add ((mul_same 2).add ((mul_same 1).add (Same.refl _)))

/-- The loop over a block of bytes adds what the bytes weigh. -/
theorem checksumLoop_same (data : List UInt8) : Same (checksumLoop data) (weight false data) := by
  fun_induction checksumLoop data with
  | case1 b0 b1 b2 b3 b4 b5 b6 b7 rest ih =>
    have heven : [b0, b1, b2, b3, b4, b5, b6, b7].length % 2 = 0 := by simp
    have hsplit := weight_append_of_even heven rest
    exact hsplit ▸ (decode_eight_same b0 b1 b2 b3 b4 b5 b6 b7).add ih
  | case2 b0 b1 rest _ ih =>
    have heven : [b0, b1].length % 2 = 0 := by simp
    have hsplit := weight_append_of_even heven rest
    rw [toNat_word]
    exact hsplit ▸ (Same.refl _).add ih
  | case3 b0 =>
    rw [Nat.mul_comm]
    exact Same.refl _
  | case4 => exact Same.refl _

/-- The eight bytes of the largest words add up to less than `2 ^ 64`. -/
theorem checksumLoop_le (data : List UInt8) : checksumLoop data ≤ 2 ^ 61 * data.length := by
  fun_induction checksumLoop data with
  | case1 b0 b1 b2 b3 b4 b5 b6 b7 rest ih =>
    have hlt := LittleEndian.decode_lt [b7, b6, b5, b4, b3, b2, b1, b0]
    simp only [List.length_cons, List.length_nil] at hlt ⊢
    omega
  | case2 b0 b1 rest _ ih =>
    have hlt := LittleEndian.decode_lt [b1, b0]
    simp only [List.length_cons, List.length_nil] at hlt ⊢
    omega
  | case3 b0 =>
    have hlt := b0.toNat_lt
    simp only [List.length_cons, List.length_nil]
    omega
  | case4 => exact Nat.zero_le _

/-! ### `get` -/

/-- Adding the upper half of 128 bits to the lower keeps the checksum. -/
theorem fold64_same (n : Nat) : Same (n % 2 ^ 64 + n / 2 ^ 64) n := fold_same 4 n

/-- Adding the upper half of 32 bits to the lower keeps the checksum. -/
theorem fold16_same (n : Nat) : Same (n % 2 ^ 16 + n / 2 ^ 16) n := fold_same 1 n

/-- A 64-bit number counts like its four words. -/
theorem foldWords_same (n : Nat) :
    Same (n % 2 ^ 16 + n / 2 ^ 16 % 2 ^ 16 + n / 2 ^ 32 % 2 ^ 16 + n / 2 ^ 48) n := by
  have hsplit : n % 2 ^ 16 + 2 ^ (16 * 1) * (n / 2 ^ 16 % 2 ^ 16) +
      2 ^ (16 * 2) * (n / 2 ^ 32 % 2 ^ 16) + 2 ^ (16 * 3) * (n / 2 ^ 48) = n := by omega
  have hwords := (((Same.refl (n % 2 ^ 16)).add (mul_same (a := n / 2 ^ 16 % 2 ^ 16) 1)).add
    (mul_same (a := n / 2 ^ 32 % 2 ^ 16) 2)).add (mul_same (a := n / 2 ^ 48) 3)
  rw [hsplit] at hwords
  exact hwords.symm

/-- The first two steps of `get` end with 64 bits. -/
theorem fold64_lt {n : Nat} (h : n < 2 ^ 127) :
    (n % 2 ^ 64 + n / 2 ^ 64) % 2 ^ 64 + (n % 2 ^ 64 + n / 2 ^ 64) / 2 ^ 64 < 2 ^ 64 := by
  omega

/-- The last two steps of `get` end with 16 bits. -/
theorem fold16_le {n : Nat} (h : n < 2 ^ 18) :
    (n % 2 ^ 16 + n / 2 ^ 16) % 2 ^ 16 + (n % 2 ^ 16 + n / 2 ^ 16) / 2 ^ 16 ≤ 65535 := by
  omega

/-- The five steps of `get` fold the sum to the complement of the checksum. -/
theorem checksumGet_spec {csum : Nat} (h : csum < 2 ^ 127) :
    checksumGet csum ≤ 65535 ∧ Same (65535 - checksumGet csum) csum := by
  have hone := fold64_same csum
  have hlt := fold64_lt h
  rw [checksumGet]
  generalize csum % 2 ^ 64 + csum / 2 ^ 64 = x at hone hlt ⊢
  have htwo := fold64_same x
  generalize x % 2 ^ 64 + x / 2 ^ 64 = y at htwo hlt ⊢
  have hthree := foldWords_same y
  have hwords : y % 2 ^ 16 + y / 2 ^ 16 % 2 ^ 16 + y / 2 ^ 32 % 2 ^ 16 + y / 2 ^ 48 < 2 ^ 18 := by
    omega
  generalize y % 2 ^ 16 + y / 2 ^ 16 % 2 ^ 16 + y / 2 ^ 32 % 2 ^ 16 + y / 2 ^ 48 = z
    at hthree hwords ⊢
  have hfour := fold16_same z
  have hfive := fold16_same (z % 2 ^ 16 + z / 2 ^ 16)
  have hle := fold16_le hwords
  generalize z % 2 ^ 16 + z / 2 ^ 16 = u at hfour hfive hle ⊢
  generalize u % 2 ^ 16 + u / 2 ^ 16 = v at hfive hle ⊢
  have hsame := hfive.trans (hfour.trans (hthree.trans (htwo.trans hone)))
  have hget : (2 ^ 64 - 1 - v) % 2 ^ 16 = 65535 - v := by omega
  rw [hget, Nat.sub_sub_self hle]
  exact ⟨Nat.sub_le _ _, hsame⟩

/-- A sum of the weight of the bytes gives their checksum. -/
theorem checksumGet_eq {csum : Nat} {bytes : List UInt8} (h : csum < 2 ^ 127)
    (hsame : Same csum (weight false bytes)) : checksumGet csum = checksum bytes := by
  obtain ⟨hle, hget⟩ := checksumGet_spec h
  exact ((checksum_eq_iff hle).mpr (hget.trans hsame)).symm

/-! ### The accumulator -/

/-- The sum grows by `n`, if that fits. -/
def addsTo (c : Checksummer) (n : Nat) (odd : Bool) : Except ChecksumError Checksummer :=
  if c.csum + n < 2 ^ 127 then .ok ⟨c.csum + n, odd⟩ else .error .overflow

/-- The sum grows twice. -/
theorem addsTo_bind {c : Checksummer} {n m : Nat} {odd odd' : Bool}
    {f : Checksummer → Except ChecksumError Checksummer}
    (hf : c.csum + n < 2 ^ 127 → f ⟨c.csum + n, odd⟩ = addsTo ⟨c.csum + n, odd⟩ m odd') :
    addsTo c n odd >>= f = addsTo c (n + m) odd' := by
  unfold addsTo at hf ⊢
  rw [← Nat.add_assoc]
  split
  · rename_i hfits
    exact hf hfits
  · have hbig : ¬c.csum + n + m < 2 ^ 127 := by omega
    rw [if_neg hbig]
    rfl

/-- The sum grows, and the parity is set afterwards. -/
theorem addsTo_setOdd (c : Checksummer) (n : Nat) (odd odd' : Bool) :
    (addsTo c n odd >>= fun c' => .ok { c' with odd := odd' }) = addsTo c n odd' := by
  unfold addsTo
  split
  · rfl
  · rfl

/-! ### The bytes of numbers -/

/-- A 16-bit number weighs what its bytes weigh in network order. -/
theorem weight_u16 (data : UInt16) :
    weight false [(data >>> 8).toUInt8, data.toUInt8] = data.toNat := by
  have hlt := data.toNat_lt
  simp only [weight, UInt16.toNat_toUInt8, UInt16.toNat_shiftRight, Nat.shiftRight_eq_div_pow,
    Bool.false_eq_true, if_true, if_false, UInt16.reduceToNat, Nat.reduceMod, Nat.reducePow,
    Bool.not_false, Nat.add_zero]
  omega

/-- Behind an odd number of bytes, the halves of a 32-bit number may change places. -/
theorem weight_u32_odd (data : UInt32) :
    weight true (SumCall.u32 data).pieces.flatten =
      weight true [(data.toUInt16 >>> 8).toUInt8, data.toUInt16.toUInt8] +
        weight true [((data >>> 16).toUInt16 >>> 8).toUInt8, (data >>> 16).toUInt16.toUInt8] := by
  show weight true [_, _, _, _] = _
  have hlt := data.toNat_lt
  simp only [weight, UInt16.toNat_toUInt8, UInt16.toNat_shiftRight, UInt32.toNat_shiftRight,
    UInt32.toNat_toUInt8, UInt32.toNat_toUInt16, Nat.shiftRight_eq_div_pow, if_true, if_false,
    UInt32.reduceToNat, UInt16.reduceToNat, Nat.reduceMod, Nat.reducePow, Bool.not_true,
    Bool.not_false, Bool.false_eq_true, Nat.add_zero, Nat.reduceDvd, Nat.mod_mod_of_dvd]
  omega

/-- A 32-bit number adds what its bytes weigh in network order. -/
theorem weight_u32_same (data : UInt32) :
    Same data.toNat (weight false (SumCall.u32 data).pieces.flatten) := by
  have heven : [(data >>> 24).toUInt8, (data >>> 16).toUInt8].length % 2 = 0 := by simp
  have hhigh := weight_append_of_even heven [(data >>> 8).toUInt8, data.toUInt8]
  have hsplit : data.toNat =
      2 ^ (16 * 1) * weight false [(data >>> 24).toUInt8, (data >>> 16).toUInt8] +
        weight false [(data >>> 8).toUInt8, data.toUInt8] := by
    have hlt := data.toNat_lt
    simp only [weight, UInt32.toNat_shiftRight, UInt32.toNat_toUInt8, Nat.shiftRight_eq_div_pow,
      Nat.mul_one, Nat.reducePow, Bool.false_eq_true, if_true, if_false, UInt32.reduceToNat,
      Nat.reduceMod, Bool.not_false, Nat.add_zero]
    omega
  rw [hsplit]
  exact hhigh ▸ (mul_same 1).add (Same.refl _)

/-! ### The calls -/

/-- What `sum` of memory adds. -/
def dataAdded (odd : Bool) (data : List UInt8) : Nat :=
  if odd then
    match data with
    | [] => 0
    | b :: rest => b.toNat + checksumLoop rest
  else checksumLoop data

/-- What `sum` of some pieces adds, one after the other. -/
def piecesAdded : Bool → List (List UInt8) → Nat
  | _, [] => 0
  | odd, p :: ps => dataAdded odd p + piecesAdded (parityAfter odd p) ps

/-- What a call adds. -/
def added (odd : Bool) : SumCall → Nat
  | .memory bytes => dataAdded odd bytes
  | .packet fragments => piecesAdded odd fragments
  | .u32 data => if odd then weight odd (SumCall.u32 data).pieces.flatten else data.toNat
  | call => weight odd call.pieces.flatten

/-- What the calls add, one after the other. -/
def allAdded : Bool → List SumCall → Nat
  | _, [] => 0
  | odd, call :: calls =>
    added odd call + allAdded (parityAfter odd call.pieces.flatten) calls

/-- No piece is empty behind an odd number of bytes. -/
def EmptyAtEven : Bool → List (List UInt8) → Prop
  | _, [] => True
  | odd, p :: ps => (odd = true → p ≠ []) ∧ EmptyAtEven (parityAfter odd p) ps

/-- Two lists of pieces have their empty ones at even places when each list has. -/
theorem emptyAtEven_append {odd : Bool} {ps qs : List (List UInt8)} :
    EmptyAtEven odd (ps ++ qs) ↔
      EmptyAtEven odd ps ∧ EmptyAtEven (parityAfter odd ps.flatten) qs := by
  induction ps generalizing odd with
  | nil => simp [EmptyAtEven]
  | cons p ps ih =>
    rw [List.cons_append, EmptyAtEven, EmptyAtEven, ih, List.flatten_cons, parityAfter_append,
      and_assoc]

/-- `sum` over a block, unless the block is empty at an odd place. -/
theorem sumData_eq {c : Checksummer} {data : List UInt8} (h : c.odd = true → data ≠ []) :
    c.sumData data = addsTo c (dataAdded c.odd data) (parityAfter c.odd data) := by
  obtain ⟨csum, odd⟩ := c
  cases odd with
  | false => exact addsTo_setOdd _ _ _ _
  | true =>
    cases data with
    | nil => exact absurd rfl (h rfl)
    | cons b rest => exact addsTo_bind fun _ => addsTo_setOdd _ _ _ _

/-- `sum` over the fragments of a packet whose empty ones are at even places. -/
theorem sumPacket_eq {c : Checksummer} {fragments : List (List UInt8)} (hfits : c.csum < 2 ^ 127)
    (h : EmptyAtEven c.odd fragments) :
    c.sumPacket fragments =
      addsTo c (piecesAdded c.odd fragments) (parityAfter c.odd fragments.flatten) := by
  induction fragments generalizing c with
  | nil =>
    rw [List.flatten_nil, parityAfter_nil]
    exact (if_pos hfits).symm
  | cons p ps ih =>
    obtain ⟨hp, hps⟩ := h
    rw [sumPacket, List.foldlM_cons, sumData_eq hp, piecesAdded, List.flatten_cons,
      parityAfter_append]
    exact addsTo_bind fun hfits' => ih (c := ⟨_, parityAfter c.odd p⟩) hfits' hps

/-- `sum` over one byte. -/
theorem sumU8_eq (c : Checksummer) (data : UInt8) :
    c.sumU8 data = addsTo c (weight c.odd [data]) (!c.odd) := by
  obtain ⟨csum, odd⟩ := c
  cases odd with
  | false =>
    rw [weight, weight, Nat.add_zero, if_neg Bool.false_ne_true, Nat.mul_comm]
    exact addsTo_setOdd _ _ _ _
  | true => exact addsTo_setOdd _ _ _ _

/-- `sum` over a 16-bit number. -/
theorem sumU16_eq (c : Checksummer) (data : UInt16) :
    c.sumU16 data =
      addsTo c (weight c.odd [(data >>> 8).toUInt8, data.toUInt8]) c.odd := by
  obtain ⟨csum, odd⟩ := c
  cases odd with
  | false =>
    rw [weight_u16]
    rfl
  | true =>
    show (sumU8 _ _ >>= _) = _
    rw [sumU8_eq]
    exact addsTo_bind fun _ => sumU8_eq _ _

/-- `sum` over a 32-bit number. -/
theorem sumU32_eq (c : Checksummer) (data : UInt32) :
    c.sumU32 data = addsTo c (added c.odd (.u32 data)) c.odd := by
  obtain ⟨csum, odd⟩ := c
  cases odd with
  | false => rfl
  | true =>
    show (sumU16 _ _ >>= _) = addsTo _ (weight true _) _
    rw [sumU16_eq, weight_u32_odd]
    exact addsTo_bind fun _ => sumU16_eq _ _

/-- A call that has no empty piece behind an odd number of bytes. -/
theorem run_eq {c : Checksummer} {call : SumCall} (hfits : c.csum < 2 ^ 127)
    (h : EmptyAtEven c.odd call.pieces) :
    call.run c = addsTo c (added c.odd call) (parityAfter c.odd call.pieces.flatten) := by
  cases call with
  | memory bytes =>
    show sumData c bytes = addsTo c (dataAdded c.odd bytes) (parityAfter c.odd (bytes ++ []))
    rw [List.append_nil]
    exact sumData_eq h.1
  | packet fragments => exact sumPacket_eq hfits h
  | u8 data =>
    show _ = addsTo c (weight c.odd [data]) (parityAfter c.odd [data])
    rw [parityAfter_cons, parityAfter_nil]
    exact sumU8_eq c data
  | u16 data =>
    show _ = addsTo c (weight c.odd [_, _]) (parityAfter c.odd [_, _])
    rw [parityAfter_cons, parityAfter_cons, parityAfter_nil, Bool.not_not]
    exact sumU16_eq c data
  | u32 data =>
    show _ = addsTo c (added c.odd (.u32 data)) (parityAfter c.odd [_, _, _, _])
    rw [parityAfter_cons, parityAfter_cons, parityAfter_cons, parityAfter_cons, parityAfter_nil,
      Bool.not_not, Bool.not_not]
    exact sumU32_eq c data

/-- The bytes of a call come before those of the calls behind it. -/
theorem string_cons (call : SumCall) (calls : List SumCall) :
    SumCall.string (call :: calls) = call.pieces.flatten ++ SumCall.string calls := by
  rw [SumCall.string, SumCall.allPieces, List.flatMap_cons, List.flatten_append]
  rfl

/-- Calls that have no empty piece behind an odd number of bytes. -/
theorem runAll_eq {calls : List SumCall} {c : Checksummer} (hfits : c.csum < 2 ^ 127)
    (h : EmptyAtEven c.odd (SumCall.allPieces calls)) :
    calls.foldlM SumCall.run c = addsTo c (allAdded c.odd calls)
      (parityAfter c.odd (SumCall.string calls)) := by
  induction calls generalizing c with
  | nil =>
    show Except.ok c = addsTo c 0 (parityAfter c.odd [])
    rw [parityAfter_nil]
    exact (if_pos hfits).symm
  | cons call calls ih =>
    obtain ⟨hcall, hcalls⟩ := emptyAtEven_append.mp h
    rw [List.foldlM_cons, run_eq hfits hcall, allAdded, string_cons, parityAfter_append]
    exact addsTo_bind fun hfits' => ih (c := ⟨_, parityAfter c.odd call.pieces.flatten⟩) hfits' hcalls

/-! ### What the calls add -/

/-- A block adds what its bytes weigh. -/
theorem dataAdded_same {odd : Bool} {data : List UInt8} :
    Same (dataAdded odd data) (weight odd data) := by
  cases odd with
  | false => exact checksumLoop_same data
  | true =>
    cases data with
    | nil => exact Same.refl _
    | cons b rest => exact (Same.refl _).add (checksumLoop_same rest)

/-- The fragments of a packet add what their bytes weigh. -/
theorem piecesAdded_same (odd : Bool) (ps : List (List UInt8)) :
    Same (piecesAdded odd ps) (weight odd ps.flatten) := by
  induction ps generalizing odd with
  | nil => exact Same.refl _
  | cons p ps ih =>
    rw [List.flatten_cons, weight_append]
    exact dataAdded_same.add (ih _)

/-- Every call adds the weight of its bytes. -/
theorem added_same (odd : Bool) (call : SumCall) :
    Same (added odd call) (weight odd call.pieces.flatten) := by
  cases call with
  | memory bytes =>
    show Same _ (weight odd (bytes ++ []))
    rw [List.append_nil]
    exact dataAdded_same
  | packet fragments => exact piecesAdded_same odd fragments
  | u8 data => exact Same.refl _
  | u16 data => exact Same.refl _
  | u32 data =>
    cases odd with
    | false => exact weight_u32_same data
    | true => exact Same.refl _

/-- All the calls together add what their bytes weigh. -/
theorem allAdded_same (odd : Bool) (calls : List SumCall) :
    Same (allAdded odd calls) (weight odd (SumCall.string calls)) := by
  induction calls generalizing odd with
  | nil => exact Same.refl _
  | cons call calls ih =>
    rw [string_cons, weight_append]
    exact (added_same odd call).add (ih _)

/-! ### An empty piece behind an odd number of bytes -/

/-- When adding does not fail, the sum is under 2^127. -/
theorem addsTo_ok {c c' : Checksummer} {n : Nat} {odd : Bool} (h : addsTo c n odd = .ok c') :
    c.csum + n < 2 ^ 127 ∧ c' = ⟨c.csum + n, odd⟩ := by
  unfold addsTo at h
  split at h
  · rename_i hfits
    cases h
    exact ⟨hfits, rfl⟩
  · cases h

/-- To read the first byte, there must be one. -/
theorem nonempty_of_sumData {c c' : Checksummer} {data : List UInt8}
    (h : c.sumData data = .ok c') : c.odd = true → data ≠ [] := by
  rintro hodd rfl
  rw [sumData, if_pos hodd] at h
  cases h

/-- A packet is summed only when its empty fragments are at even places. -/
theorem emptyAtEven_of_sumPacket {c c' : Checksummer} {fragments : List (List UInt8)}
    (h : c.sumPacket fragments = .ok c') : EmptyAtEven c.odd fragments := by
  induction fragments generalizing c with
  | nil => exact trivial
  | cons p ps ih =>
    rw [sumPacket, List.foldlM_cons] at h
    obtain ⟨d, hd, hrest⟩ := bind_eq_ok.mp h
    have hp := nonempty_of_sumData hd
    rw [sumData_eq hp] at hd
    obtain ⟨-, rfl⟩ := addsTo_ok hd
    exact ⟨hp, ih hrest⟩

/-- A call succeeds only when its empty pieces are at even places. -/
theorem emptyAtEven_of_run {c c' : Checksummer} {call : SumCall} (h : call.run c = .ok c') :
    EmptyAtEven c.odd call.pieces := by
  cases call with
  | memory bytes => exact ⟨nonempty_of_sumData h, trivial⟩
  | packet fragments => exact emptyAtEven_of_sumPacket h
  | u8 data => exact ⟨fun _ => List.cons_ne_nil _ _, trivial⟩
  | u16 data => exact ⟨fun _ => List.cons_ne_nil _ _, trivial⟩
  | u32 data => exact ⟨fun _ => List.cons_ne_nil _ _, trivial⟩

/-- The calls all succeed only when their empty pieces are at even places. -/
theorem emptyAtEven_of_runAll {c c' : Checksummer} {calls : List SumCall} (hfits : c.csum < 2 ^ 127)
    (h : calls.foldlM SumCall.run c = .ok c') : EmptyAtEven c.odd (SumCall.allPieces calls) := by
  induction calls generalizing c with
  | nil => exact trivial
  | cons call calls ih =>
    rw [List.foldlM_cons] at h
    obtain ⟨d, hd, hrest⟩ := bind_eq_ok.mp h
    have hcall := emptyAtEven_of_run hd
    rw [run_eq hfits hcall] at hd
    obtain ⟨hfits', rfl⟩ := addsTo_ok hd
    exact emptyAtEven_append.mpr ⟨hcall, ih hfits' hrest⟩

/-! ### The checksum of the string -/

/-- The calls read only their pieces and give the checksum of the string, as the number that has its
bytes in network order. With these bytes in an aligned field of zeros, the checksum of the string is
zero. -/
def SumsRight (calls : List SumCall) : Prop :=
  ∃ c, SumCall.runAll calls = .ok c ∧ c.get = hton 2 (checksum (SumCall.string calls)) ∧
    ∀ pre post, SumCall.string calls = pre ++ 0 :: 0 :: post → pre.length % 2 = 0 →
      checksum (pre ++ encode 2 c.get ++ post) = 0

/-- A checksum goes to the wire with its upper byte first. -/
theorem encode_hton {v : Nat} (hv : v ≤ 65535) :
    ∃ hi lo : UInt8, encode 2 (hton 2 v) = [hi, lo] ∧ 256 * hi.toNat + lo.toNat = v := by
  have hround : encode 2 (hton 2 v) = (encode 2 v).reverse := by
    exact LittleEndian.encode_decode (encode 2 v).reverse
  refine ⟨UInt8.ofNat (v / 256), UInt8.ofNat v, hround, ?_⟩
  rw [UInt8.toNat_ofNat', UInt8.toNat_ofNat']
  omega

/-- The calls give the checksum of the string exactly when no piece is empty behind an odd number of
bytes, and the words that they add stay below `2 ^ 127`. -/
theorem sumsRight_iff (calls : List SumCall) :
    SumsRight calls ↔
      EmptyAtEven false (SumCall.allPieces calls) ∧ allAdded false calls < 2 ^ 127 := by
  have hzero : (create.csum : Nat) < 2 ^ 127 := Nat.two_pow_pos 127
  constructor
  · rintro ⟨c, hrun, -⟩
    have hpieces : EmptyAtEven false _ := emptyAtEven_of_runAll hzero hrun
    rw [SumCall.runAll, runAll_eq hzero hpieces] at hrun
    have hfits := (addsTo_ok hrun).1
    rw [create, Nat.zero_add] at hfits
    exact ⟨hpieces, hfits⟩
  · rintro ⟨hpieces, hfits⟩
    have hrun : SumCall.runAll calls = .ok
        ⟨allAdded false calls, parityAfter false (SumCall.string calls)⟩ := by
      rw [SumCall.runAll, runAll_eq hzero hpieces, addsTo, create, Nat.zero_add, if_pos hfits]
    have hget := checksumGet_eq hfits (allAdded_same false calls)
    have hle : checksum (SumCall.string calls) ≤ 65535 := Nat.sub_le _ _
    refine ⟨_, hrun, congrArg (hton 2) hget, ?_⟩
    intro pre post hstring heven
    obtain ⟨hi, lo, hbytes, hvalue⟩ := encode_hton hle
    rw [Checksummer.get, hget, hbytes, List.append_assoc]
    rw [hstring] at hvalue
    exact checksum_field heven hvalue

/-- One byte behind which there is an empty piece. -/
theorem not_sumsRight_of_empty : ¬∀ calls, SumsRight calls := by
  intro h
  obtain ⟨c, hrun, -⟩ := h [.memory [1], .memory []]
  exact nomatch hrun

/-! ### The bound on the accumulator -/

/-- A byte adds at most 2^61. -/
theorem dataAdded_le (odd : Bool) (data : List UInt8) : dataAdded odd data ≤ 2 ^ 61 * data.length := by
  cases odd with
  | false => exact checksumLoop_le data
  | true =>
    cases data with
    | nil => exact Nat.zero_le _
    | cons b rest =>
      have hb := b.toNat_lt
      have hrest := checksumLoop_le rest
      show b.toNat + checksumLoop rest ≤ _
      rw [List.length_cons]
      omega

/-- A byte of a packet adds at most 2^61. -/
theorem piecesAdded_le (odd : Bool) (ps : List (List UInt8)) :
    piecesAdded odd ps ≤ 2 ^ 61 * ps.flatten.length := by
  induction ps generalizing odd with
  | nil => exact Nat.zero_le _
  | cons p ps ih =>
    rw [piecesAdded, List.flatten_cons, List.length_append, Nat.mul_add]
    exact Nat.add_le_add (dataAdded_le odd p) (ih _)

/-- A byte of a call adds at most 2^61. -/
theorem added_le (odd : Bool) (call : SumCall) :
    added odd call ≤ 2 ^ 61 * call.pieces.flatten.length := by
  have hweight : weight odd call.pieces.flatten ≤ 2 ^ 61 * call.pieces.flatten.length :=
    (weight_le odd _).trans (Nat.mul_le_mul_right _ (by decide))
  cases call with
  | memory bytes =>
    show _ ≤ 2 ^ 61 * (bytes ++ []).length
    rw [List.append_nil]
    exact dataAdded_le odd bytes
  | packet fragments => exact piecesAdded_le odd fragments
  | u8 data => exact hweight
  | u16 data => exact hweight
  | u32 data =>
    cases odd with
    | false =>
      have hlt := data.toNat_lt
      show data.toNat ≤ 2 ^ 61 * 4
      omega
    | true => exact hweight

/-- A string of less than `2 ^ 66` bytes cannot fill the accumulator. -/
theorem allAdded_lt {calls : List SumCall} (h : (SumCall.string calls).length < 2 ^ 66) :
    allAdded false calls < 2 ^ 127 := by
  have hle : ∀ odd, allAdded odd calls ≤ 2 ^ 61 * (SumCall.string calls).length := by
    clear h
    induction calls with
    | nil => exact fun _ => Nat.zero_le _
    | cons call calls ih =>
      intro odd
      rw [allAdded, string_cons, List.length_append, Nat.mul_add]
      exact Nat.add_le_add (added_le odd call) (ih _)
  have := hle false
  omega

end Netstar.Proofs.Net.Checksummer
