import Mathlib.Algebra.Order.Ring.Int

/-!
# `Netstar.Spec.Core.Bitops`: bit counting and shifts

`__builtin_clzl` and `__builtin_ctzl` have no result for zero, and a shift of a 64-bit value by 64 or
more is undefined. A program that gets there has no meaning, so these operations can fail.
-/

set_option autoImplicit false

namespace Netstar.Spec.Core

/-- Where the program has no meaning. -/
inductive Undefined where
  | countOfZero
  | shiftTooLong
  | outOfBounds
  | freedStorage
  deriving DecidableEq, Repr

/-- `count_leading_zeros`. -/
def countLeadingZeros (x : UInt64) : Except Undefined Nat :=
  if x = 0 then .error .countOfZero else .ok (63 - x.toNat.log2)

/-- `log2ceil`. -/
def log2ceil (n : UInt64) : Except Undefined Nat := do
  let zeros ← countLeadingZeros (n - 1)
  return 64 - zeros

/-- `size_t(1) << shift`. -/
def shiftOne (shift : Nat) : Except Undefined UInt64 :=
  if 64 ≤ shift then .error .shiftTooLong else .ok (UInt64.ofNat (2 ^ shift))

end Netstar.Spec.Core
