import Mathlib.Algebra.Order.Ring.Int
import Mathlib.Data.List.Basic

/-!
# `Netstar.Lib.LittleEndian`: numbers as little-endian bytes

`encode n v` writes the low `n` bytes of `v`, least significant first, and `decode` reads them
back. `decode_encode` and `encode_decode` are the round trips, `decode_lt` is the range, and
`take_encode_append` cuts an encoded number off a longer byte string.
-/

set_option autoImplicit false

namespace Netstar.Lib.LittleEndian

/-- The low `n` bytes of `v`, least significant first. -/
def encode : Nat → Nat → List UInt8
  | 0, _ => []
  | n + 1, v => UInt8.ofNat v :: encode n (v / 256)

/-- The number that the bytes stand for. -/
def decode : List UInt8 → Nat
  | [] => 0
  | b :: bs => b.toNat + 256 * decode bs

/-- A number takes as many bytes as it is given. -/
@[simp] theorem length_encode (n v : Nat) : (encode n v).length = n := by
  induction n generalizing v with
  | zero => rfl
  | succ n ih => simp [encode, ih]

/-- The bytes of a number that fits give the number back. -/
theorem decode_encode (n v : Nat) (h : v < 256 ^ n) : decode (encode n v) = v := by
  induction n generalizing v with
  | zero =>
    rw [Nat.pow_zero, Nat.lt_one_iff] at h
    rw [h]
    rfl
  | succ n ih =>
    have hdiv : v / 256 < 256 ^ n := by
      rw [Nat.pow_succ, Nat.mul_comm] at h
      exact Nat.div_lt_of_lt_mul h
    rw [encode, decode, ih _ hdiv, UInt8.toNat_ofNat']
    omega

/-- The number of some bytes gives the bytes back. -/
theorem encode_decode (bs : List UInt8) : encode bs.length (decode bs) = bs := by
  induction bs with
  | nil => rfl
  | cons b bs ih =>
    have hlow : UInt8.ofNat (b.toNat + 256 * decode bs) = b := by
      apply UInt8.toNat_inj.mp
      rw [UInt8.toNat_ofNat']
      have := b.toNat_lt
      omega
    have hhigh : (b.toNat + 256 * decode bs) / 256 = decode bs := by
      have := b.toNat_lt
      omega
    rw [List.length_cons, decode, encode, hlow, hhigh, ih]

/-- The number of `n` bytes is less than `256 ^ n`. -/
theorem decode_lt (bs : List UInt8) : decode bs < 256 ^ bs.length := by
  induction bs with
  | nil => exact Nat.one_pos
  | cons b bs ih =>
    have hb := b.toNat_lt
    rw [decode, List.length_cons, Nat.pow_succ]
    omega

/-- The first bytes are those of the number. -/
theorem take_encode_append (n v : Nat) (rest : List UInt8) :
    (encode n v ++ rest).take n = encode n v := by
  rw [List.take_append_of_le_length (by simp)]
  exact List.take_of_length_le (by simp)

end Netstar.Lib.LittleEndian
