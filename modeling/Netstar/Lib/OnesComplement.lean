import Mathlib.Data.Nat.ModEq

/-!
# `Netstar.Lib.OnesComplement`: the ones' complement checksum

The Internet checksum of a byte string is the complement of the ones' complement sum of its 16-bit
words. A carry out of the 16 bits is added again at the other end. An odd last byte counts as a word
with a zero byte behind it. `checksum` is this definition.

A ones' complement sum is a number modulo 65535 with two zeros: 65535 comes up when some word is not
zero. So `Same` compares two numbers modulo 65535 and asks that both are zero or none is. It is kept by
sums (`Same.add`) and by folding a number at a power of `2 ^ 16` (`fold_same`), and it decides the sum
(`eq_of_same`). The bytes enter through `weight`, where only the parity of a position matters.
-/

set_option autoImplicit false

namespace Netstar.Lib.OnesComplement

/-- The sum with the carry added again. -/
def onesAdd (a b : Nat) : Nat := if a + b < 65536 then a + b else a + b - 65535

/-- The 16-bit words of the bytes, the high byte first. -/
def words : List UInt8 → List Nat
  | hi :: lo :: rest => (256 * hi.toNat + lo.toNat) :: words rest
  | [hi] => [256 * hi.toNat]
  | [] => []

/-- The one's complement sum of words. -/
def onesSum (ws : List Nat) : Nat := ws.foldl onesAdd 0

/-- The checksum of a byte string. -/
def checksum (bytes : List UInt8) : Nat := 65535 - onesSum (words bytes)

/-! ### Numbers modulo 65535 -/

/-- Equal modulo 65535, and both zero or none. -/
def Same (a b : Nat) : Prop := a % 65535 = b % 65535 ∧ (a = 0 ↔ b = 0)

variable {a b c d : Nat}

/-- A number has the sum of itself. -/
theorem Same.refl (a : Nat) : Same a a := ⟨rfl, Iff.rfl⟩

/-- Having the same sum goes both ways. -/
theorem Same.symm (h : Same a b) : Same b a := ⟨h.1.symm, h.2.symm⟩

/-- Numbers with the sum of a third one have the same sum. -/
theorem Same.trans (h : Same a b) (h' : Same b c) : Same a c := ⟨h.1.trans h'.1, h.2.trans h'.2⟩

/-- Sums may be added. -/
theorem Same.add (h : Same a b) (h' : Same c d) : Same (a + c) (b + d) := by
  obtain ⟨hmod, hzero⟩ := h
  obtain ⟨hmod', hzero'⟩ := h'
  constructor
  · exact Nat.ModEq.add hmod hmod'
  · rw [Nat.add_eq_zero_iff, Nat.add_eq_zero_iff, hzero, hzero']

/-- Below `2 ^ 16` no two numbers are the same. -/
theorem eq_of_same (h : Same a b) (ha : a ≤ 65535) (hb : b ≤ 65535) : a = b := by
  obtain ⟨hmod, hzero⟩ := h
  omega

/-- A power of `2 ^ 16` is one modulo 65535. -/
theorem mul_same (k : Nat) : Same (2 ^ (16 * k) * a) a := by
  have hpow : 2 ^ (16 * k) % 65535 = 1 := by
    rw [Nat.pow_mul, Nat.pow_mod]
    simp
  constructor
  · rw [Nat.mul_mod, hpow, Nat.one_mul, Nat.mod_mod]
  · rw [Nat.mul_eq_zero, or_iff_right (Nat.pos_iff_ne_zero.mp (Nat.two_pow_pos _))]

/-- The part of a number above bit `16 * k` may be added to the part below. -/
theorem fold_same (k n : Nat) : Same (n % 2 ^ (16 * k) + n / 2 ^ (16 * k)) n := by
  have hsplit : n % 2 ^ (16 * k) + 2 ^ (16 * k) * (n / 2 ^ (16 * k)) = n := Nat.mod_add_div n _
  have hfold : Same (n % 2 ^ (16 * k) + n / 2 ^ (16 * k))
      (n % 2 ^ (16 * k) + 2 ^ (16 * k) * (n / 2 ^ (16 * k))) :=
    (Same.refl _).add (mul_same k).symm
  rwa [hsplit] at hfold

/-- Adding two words in one's complement keeps the sum. -/
theorem onesAdd_same (hb : b ≤ 65535) (ha : a ≤ 65535) :
    onesAdd a b ≤ 65535 ∧ Same (onesAdd a b) (a + b) := by
  rw [onesAdd]
  split
  · exact ⟨by omega, Same.refl _⟩
  · refine ⟨by omega, ?_, ?_⟩
    · omega
    · omega

/-- The ones' complement sum of words is their sum. -/
theorem onesSum_same (ws : List Nat) (h : ∀ w ∈ ws, w ≤ 65535) :
    onesSum ws ≤ 65535 ∧ Same (onesSum ws) ws.sum := by
  -- The sum so far takes the place of the zero at the beginning.
  suffices hacc : ∀ acc ≤ 65535,
      ws.foldl onesAdd acc ≤ 65535 ∧ Same (ws.foldl onesAdd acc) (acc + ws.sum) by
    have hzero := hacc 0 (Nat.zero_le _)
    rwa [Nat.zero_add] at hzero
  induction ws with
  | nil => exact fun acc hacc => ⟨hacc, Same.refl _⟩
  | cons w ws ih =>
    intro acc hacc
    obtain ⟨hle, hadd⟩ := onesAdd_same (h w (by simp)) hacc
    obtain ⟨hle', hrest⟩ := ih (fun v hv => h v (by simp [hv])) _ hle
    refine ⟨hle', hrest.trans ?_⟩
    rw [List.sum_cons, ← Nat.add_assoc]
    exact hadd.add (Same.refl _)

/-! ### The bytes -/

/-- The sum of the bytes, where one at an even position counts 256 times. `odd` is the parity of the
first position. -/
def weight : Bool → List UInt8 → Nat
  | _, [] => 0
  | odd, b :: bs => (if odd then b.toNat else 256 * b.toNat) + weight (!odd) bs

/-- The parity of the position behind the bytes. -/
def parityAfter (odd : Bool) (bytes : List UInt8) : Bool := odd ^^ decide (bytes.length % 2 = 1)

/-- No bytes keep the parity. -/
@[simp] theorem parityAfter_nil (odd : Bool) : parityAfter odd [] = odd := by
  simp [parityAfter]

/-- Each byte changes the parity. -/
@[simp] theorem parityAfter_cons (odd : Bool) (b : UInt8) (bs : List UInt8) :
    parityAfter odd (b :: bs) = parityAfter (!odd) bs := by
  have hlen : decide ((bs.length + 1) % 2 = 1) = !decide (bs.length % 2 = 1) := by
    rw [← decide_not, decide_eq_decide]
    omega
  rw [parityAfter, parityAfter, List.length_cons, hlen, Bool.xor_not, Bool.not_xor]

/-- The parity behind two blocks, one after the other. -/
theorem parityAfter_append (odd : Bool) (xs ys : List UInt8) :
    parityAfter odd (xs ++ ys) = parityAfter (parityAfter odd xs) ys := by
  induction xs generalizing odd with
  | nil => simp
  | cons x xs ih => rw [List.cons_append, parityAfter_cons, parityAfter_cons, ih]

/-- The weight of two blocks, one after the other. -/
theorem weight_append (odd : Bool) (xs ys : List UInt8) :
    weight odd (xs ++ ys) = weight odd xs + weight (parityAfter odd xs) ys := by
  induction xs generalizing odd with
  | nil => simp [weight]
  | cons x xs ih => rw [List.cons_append, weight, weight, parityAfter_cons, ih, Nat.add_assoc]

/-- A block of even length does not move the one behind it. -/
theorem weight_append_of_even {xs : List UInt8} (h : xs.length % 2 = 0) (ys : List UInt8) :
    weight false (xs ++ ys) = weight false xs + weight false ys := by
  have hpar : parityAfter false xs = false := by
    simp [parityAfter, h]
  rw [weight_append, hpar]

/-- A byte counts less than `2 ^ 16`. -/
theorem weight_le (odd : Bool) (bytes : List UInt8) : weight odd bytes ≤ 2 ^ 16 * bytes.length := by
  induction bytes generalizing odd with
  | nil => exact Nat.zero_le _
  | cons b bs ih =>
    have hb := b.toNat_lt
    have hrest := ih (!odd)
    rw [weight, List.length_cons]
    split
    · omega
    · omega

/-- The words of some bytes add up to their weight. -/
theorem sum_words : ∀ bytes, (words bytes).sum = weight false bytes
  | [] => rfl
  | [hi] => rfl
  | hi :: lo :: rest => by
    rw [words, List.sum_cons, sum_words rest]
    exact Nat.add_assoc _ _ _

/-- Every word fits 16 bits. -/
theorem words_le : ∀ bytes, ∀ w ∈ words bytes, w ≤ 65535
  | [], w, hw => absurd hw List.not_mem_nil
  | [hi], w, hw => by
    have hhi := hi.toNat_lt
    rw [List.mem_singleton.mp hw]
    omega
  | hi :: lo :: rest, w, hw => by
    have hhi := hi.toNat_lt
    have hlo := lo.toNat_lt
    rcases List.mem_cons.mp hw with rfl | hw
    · omega
    · exact words_le rest w hw

/-- The checksum is decided by the weight of the bytes. -/
theorem checksum_eq_iff {bytes : List UInt8} {v : Nat} (hv : v ≤ 65535) :
    checksum bytes = v ↔ Same (65535 - v) (weight false bytes) := by
  obtain ⟨hle, hsum⟩ := onesSum_same (words bytes) (words_le bytes)
  rw [sum_words] at hsum
  rw [checksum]
  constructor
  · rintro rfl
    rw [Nat.sub_sub_self hle]
    exact hsum
  · intro hv'
    have hEq := eq_of_same (hv'.trans hsum.symm) (Nat.sub_le _ _) hle
    omega

/-- The checksum, put into a field of two zero bytes at an even position, makes the checksum of the
whole string zero. -/
theorem checksum_field {pre post : List UInt8} {hi lo : UInt8} (heven : pre.length % 2 = 0)
    (hfield : 256 * hi.toNat + lo.toNat = checksum (pre ++ 0 :: 0 :: post)) :
    checksum (pre ++ hi :: lo :: post) = 0 := by
  have hhi := hi.toNat_lt
  have hlo := lo.toNat_lt
  have hle : 256 * hi.toNat + lo.toNat ≤ 65535 := by omega
  obtain ⟨hmod, hzero⟩ := (checksum_eq_iff hle).mp hfield.symm
  rw [checksum_eq_iff (Nat.zero_le _)]
  rw [weight_append_of_even heven] at hmod hzero ⊢
  simp only [weight, UInt8.toNat_zero, Bool.not_false, Bool.not_true, if_true,
    Bool.false_eq_true, if_false] at hmod hzero ⊢
  constructor
  · omega
  · omega

end Netstar.Lib.OnesComplement
