import Mathlib.Data.List.Basic

/-!
# `Netstar.Lib.Tiling`: intervals cut into blocks

`Tiles a bs b` says that the blocks `bs`, one after another, fill the interval from `a` to `b`. Each
block then lies inside the interval (`Tiles.bounds`). A block is free or not.
-/

set_option autoImplicit false

namespace Netstar.Lib

/-- An interval: where it starts, its size, and whether it is free. -/
structure Block where
  start : Nat
  size : Nat
  free : Bool
  deriving DecidableEq, Repr

/-- The blocks fill the interval from `a` to `b`. -/
def Tiles : Nat → List Block → Nat → Prop
  | a, [], b => a = b
  | a, x :: xs, b => x.start = a ∧ 0 < x.size ∧ Tiles (a + x.size) xs b

variable {a b : Nat} {x : Block} {xs : List Block}

namespace Tiles

/-- The end of a tiling is not before its start. -/
theorem le (h : Tiles a xs b) : a ≤ b := by
  induction xs generalizing a with
  | nil => exact Nat.le_of_eq h
  | cons x xs ih => exact Nat.le_trans (Nat.le_add_right a x.size) (ih h.2.2)

/-- A block of the tiling lies inside the interval. -/
theorem bounds (h : Tiles a xs b) (hx : x ∈ xs) : a ≤ x.start ∧ 0 < x.size ∧ x.start + x.size ≤ b := by
  induction xs generalizing a with
  | nil => cases hx
  | cons y ys ih =>
    obtain ⟨hstart, hpos, hrest⟩ := h
    rcases List.mem_cons.mp hx with rfl | hx
    · have hle := hrest.le
      exact ⟨by omega, hpos, by omega⟩
    · have hx' := ih hrest hx
      exact ⟨by omega, hx'.2.1, hx'.2.2⟩

end Tiles

end Netstar.Lib
