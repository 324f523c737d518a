import Mathlib.Data.Nat.Bitwise

/-!
# `Netstar.Lib.HighBit`: the highest bit in which two numbers differ

`highBit a b` is the position of the highest bit in which `a` and `b` differ. It decides which of the
two is smaller, and it behaves like a distance that is an ultrametric: of the three positions for
three numbers, the two largest are equal.
-/

set_option autoImplicit false

namespace Netstar.Lib

variable {a b c : Nat}

/-- The highest bit in which two different numbers differ. -/
def highBit (a b : Nat) : Nat := (a ^^^ b).log2

/-- The highest bit in which two numbers differ does not depend on their order. -/
theorem highBit_comm (a b : Nat) : highBit a b = highBit b a := by
  rw [highBit, Nat.xor_comm, highBit]

/-- Different numbers differ in some bit. -/
theorem xor_ne_zero (h : a ≠ b) : a ^^^ b ≠ 0 := fun hzero => h (Nat.xor_eq_zero_iff.mp hzero)

/-- Above that bit the numbers agree. -/
theorem testBit_above {i : Nat} (h : highBit a b < i) : a.testBit i = b.testBit i := by
  have hlt : a ^^^ b < 2 ^ i := Nat.lt_of_lt_of_le Nat.lt_log2_self (Nat.pow_le_pow_right (by decide) h)
  have hbit := Nat.testBit_lt_two_pow hlt
  rw [Nat.testBit_xor] at hbit
  cases ha : a.testBit i <;> cases hb : b.testBit i <;> simp [ha, hb] at hbit ⊢

/-- At that bit they do not. -/
theorem testBit_highBit (h : a ≠ b) : a.testBit (highBit a b) = !b.testBit (highBit a b) := by
  have hbit := Nat.testBit_log2 (xor_ne_zero h)
  rw [Nat.testBit_xor] at hbit
  show a.testBit (highBit a b) = !b.testBit (highBit a b)
  cases ha : a.testBit (highBit a b) <;> cases hb : b.testBit (highBit a b) <;>
    simp_all [highBit]

/-- The number that has the bit is the larger one. -/
theorem lt_iff_testBit_highBit (h : a ≠ b) : a < b ↔ b.testBit (highBit a b) = true := by
  have hdiff := testBit_highBit h
  cases hb : b.testBit (highBit a b) with
  | true =>
    rw [hb] at hdiff
    exact ⟨fun _ => rfl, fun _ => Nat.lt_of_testBit _ hdiff hb fun j hj => testBit_above hj⟩
  | false =>
    rw [hb] at hdiff
    have hlt : b < a := Nat.lt_of_testBit _ hb hdiff fun j hj => (testBit_above hj).symm
    exact ⟨fun hab => absurd hab (Nat.not_lt_of_lt hlt), (fun hfalse => nomatch hfalse)⟩

/-- A position is the highest difference if the numbers differ there and agree above. -/
theorem highBit_eq {i : Nat} (hi : a.testBit i = !b.testBit i)
    (habove : ∀ j, i < j → a.testBit j = b.testBit j) : highBit a b = i := by
  have hne : a ≠ b := by
    rintro rfl
    cases h : a.testBit i <;> simp [h] at hi
  rcases Nat.lt_trichotomy (highBit a b) i with hlt | heq | hgt
  · have hagree := testBit_above hlt
    rw [hi] at hagree
    cases h : b.testBit i <;> simp [h] at hagree
  · exact heq
  · have hdiff := testBit_highBit hne
    rw [habove _ hgt] at hdiff
    cases h : b.testBit (highBit a b) <;> simp [h] at hdiff

/-- A number near `a` has the same highest difference to everything that is further away. -/
theorem highBit_of_lt (hac : a ≠ c) (h : b = a ∨ highBit a b < highBit a c) :
    highBit b c = highBit a c := by
  rcases h with rfl | hlt
  · rfl
  · refine highBit_eq ?_ fun j hj => ?_
    · rw [← testBit_above hlt]
      exact testBit_highBit hac
    · rw [← testBit_above (Nat.lt_trans hlt hj)]
      exact testBit_above hj

/-- Two numbers that differ from `a` in the same highest bit are closer to each other. -/
theorem highBit_lt_of_eq (hab : a ≠ b) (hac : a ≠ c) (hbc : b ≠ c)
    (h : highBit a b = highBit a c) : highBit b c < highBit a c := by
  refine Nat.lt_of_not_le fun hle => ?_
  have hdiff := testBit_highBit hbc
  rcases Nat.lt_or_eq_of_le hle with hlt | heq
  · rw [← testBit_above (a := a) (b := c) hlt, ← testBit_above (a := a) (b := b) (by rwa [h])] at hdiff
    cases hbit : a.testBit (highBit b c) <;> simp [hbit] at hdiff
  · have hb := testBit_highBit hab
    have hc := testBit_highBit hac
    rw [h, heq] at hb
    rw [heq] at hc
    rw [hb] at hc
    cases hbit : b.testBit (highBit b c) <;> simp_all

/-- Of two numbers above `a`, the one with the higher difference is the larger one. -/
theorem lt_of_highBit_lt (hac : a < c) (h : highBit a b < highBit a c) : b < c := by
  have hbc : highBit b c = highBit a c := highBit_of_lt (Nat.ne_of_lt hac) (.inr h)
  have hbit := (lt_iff_testBit_highBit (Nat.ne_of_lt hac)).mp hac
  have hne : b ≠ c := by
    rintro rfl
    exact Nat.lt_irrefl _ h
  exact (lt_iff_testBit_highBit hne).mpr (by rw [hbc]; exact hbit)

/-- Numbers under a power of two differ under its bit. -/
theorem highBit_lt {n : Nat} (hab : a ≠ b) (ha : a < 2 ^ n) (hb : b < 2 ^ n) : highBit a b < n :=
  (Nat.log2_lt (xor_ne_zero hab)).mpr (Nat.xor_lt_two_pow ha hb)

end Netstar.Lib
