import Mathlib.Data.Nat.Bitwise

/-!
# `Netstar.Lib.BitWindow`: windows of a bit sequence and their sums

`window w k n` holds the `w` bits of the sequence `k` from bit `n` on, the first one at the top.
`xorWindows w k d n` is the exclusive or of the windows at those of the first `n` positions where
`d` is set. This is the Toeplitz hash of the bits `d` under the key bits `k`.

A loop that keeps one window and shifts it by a bit computes the sum: `slideStep_window` is its
step, and `foldl_slideStep` a run of it. The sum is linear in `d` (`xorWindows_xor`), and two keys have
the same sums exactly when they agree on the bits under the windows (`xorWindows_congr`, `eq_of_xorWindows_single`).
-/

set_option autoImplicit false

namespace Netstar.Lib

variable {w : Nat}

/-- The `w` bits from bit `n` on. -/
def window (w : Nat) (k : Nat → Bool) (n : Nat) : BitVec w :=
  BitVec.ofNat w (Nat.ofBits fun j : Fin w => k (n + (w - 1 - j)))

/-- The exclusive or of the windows at the set bits of `d` below `n`. -/
def xorWindows (w : Nat) (k d : Nat → Bool) : Nat → BitVec w
  | 0 => 0
  | n + 1 => if d n then xorWindows w k d n ^^^ window w k n else xorWindows w k d n

/-- One step of the loop: the window is added when the bit `d` is set, and then shifted with the
bit `f` at its end. -/
def slideStep (d f : Bool) (st : BitVec w × BitVec w) : BitVec w × BitVec w :=
  (if d then st.1 ^^^ st.2 else st.1, if f then st.2 <<< 1 ||| 1 else st.2 <<< 1)

/-- A bit of a window is a bit of the key. -/
theorem getMsbD_window (k : Nat → Bool) (n j : Nat) (hj : j < w) :
    (window w k n).getMsbD j = k (n + j) := by
  have hrev : w - 1 - (w - 1 - j) = j := by omega
  have hlt : w - 1 - j < w := by omega
  rw [window, BitVec.getMsbD_eq_getLsbD, BitVec.getLsbD_ofNat, Nat.testBit_ofBits_lt _ _ hlt]
  simp only [hj, hlt, hrev, decide_true, Bool.true_and]

/-- A word with the bits of a window is the window. -/
theorem window_ext {v : BitVec w} {k : Nat → Bool} {n : Nat}
    (h : ∀ j, j < w → v.getMsbD j = k (n + j)) : v = window w k n := by
  apply BitVec.eq_of_getMsbD_eq
  intro j hj
  rw [h j hj, getMsbD_window k n j hj]

/-- The next window is this one shifted by a bit. -/
theorem window_succ (k : Nat → Bool) (n : Nat) :
    (if k (n + w) then window w k n <<< 1 ||| 1 else window w k n <<< 1) = window w k (n + 1) := by
  apply window_ext
  intro j hj
  rcases Nat.lt_or_ge (j + 1) w with hlt | hge
  · have hshift : (window w k n <<< 1).getMsbD j = k (n + 1 + j) := by
      rw [BitVec.getMsbD_shiftLeft, getMsbD_window k n (j + 1) hlt]
      congr 1
      omega
    have hone : (1#w).getMsbD j = false := by
      rw [BitVec.getMsbD_one, decide_eq_false (by omega), Bool.false_and]
    split
    · rw [BitVec.getMsbD_or, hshift]
      show (_ || (1#w).getMsbD j) = _
      rw [hone, Bool.or_false]
    · exact hshift
  · -- The last bit of the window is the new one.
    have hj' : j + 1 = w := by omega
    have hshift : (window w k n <<< 1).getMsbD j = false := by
      rw [BitVec.getMsbD_shiftLeft]
      exact BitVec.getMsbD_of_ge _ _ hge
    have hone : (1#w).getMsbD j = true := by
      rw [BitVec.getMsbD_one, decide_eq_true (by omega), decide_eq_true (by omega), Bool.and_self]
    have hnew : n + 1 + j = n + w := by omega
    rw [hnew]
    split
    · rename_i hk
      rw [BitVec.getMsbD_or, hshift]
      show (false || (1#w).getMsbD j) = _
      rw [hone, hk, Bool.false_or]
    · rename_i hk
      rw [hshift, Bool.eq_false_iff.mpr hk]

/-- The step of the loop keeps the sum and the window at the same bit. -/
theorem slideStep_window (k d : Nat → Bool) (n : Nat) :
    slideStep (d n) (k (n + w)) (xorWindows w k d n, window w k n)
      = (xorWindows w k d (n + 1), window w k (n + 1)) := by
  rw [slideStep, window_succ, xorWindows]

/-- Rounds that are steps of the loop keep the sum and the window at the same bit. -/
theorem foldl_slideStep {k d : Nat → Bool} {n : Nat}
    {round : BitVec w × BitVec w → Nat → BitVec w × BitVec w} (m : Nat)
    (h : ∀ b, b < m → ∀ st, round st b = slideStep (d (n + b)) (k (n + b + w)) st) :
    (List.range m).foldl round (xorWindows w k d n, window w k n)
      = (xorWindows w k d (n + m), window w k (n + m)) := by
  induction m with
  | zero => rfl
  | succ m ih =>
    rw [List.range_succ, List.foldl_append, ih fun b hb => h b (by omega), List.foldl_cons,
      List.foldl_nil, h m (by omega)]
    exact slideStep_window k d (n + m)

/-- The sum is linear in the bits that select the windows. -/
theorem xorWindows_xor (k d d' : Nat → Bool) (n : Nat) :
    xorWindows w k (fun i => d i ^^ d' i) n = xorWindows w k d n ^^^ xorWindows w k d' n := by
  induction n with
  | zero => simp [xorWindows]
  | succ n ih =>
    simp only [xorWindows, ih]
    cases hd : d n <;> cases hd' : d' n
    · rfl
    · exact BitVec.xor_assoc _ _ _
    · show (_ ^^^ _) ^^^ window w k n = (_ ^^^ window w k n) ^^^ xorWindows w k d' n
      rw [BitVec.xor_assoc, BitVec.xor_comm (xorWindows w k d' n), ← BitVec.xor_assoc]
    · -- The window is in both sums, and the two cancel.
      show _ ^^^ _ = (_ ^^^ window w k n) ^^^ (_ ^^^ window w k n)
      rw [BitVec.xor_assoc, BitVec.xor_comm (xorWindows w k d' n),
        ← BitVec.xor_assoc (window w k n), BitVec.xor_self, BitVec.zero_xor]

/-- The sum of windows depends on the bits under it only. -/
theorem xorWindows_congr {k k' d d' : Nat → Bool} {n : Nat}
    (hk : ∀ j, j + 1 < n + w → k j = k' j) (hd : ∀ i, i < n → d i = d' i) :
    xorWindows w k d n = xorWindows w k' d' n := by
  induction n with
  | zero => rfl
  | succ n ih =>
    have hrest := ih (fun j hj => hk j (by omega)) fun i hi => hd i (by omega)
    have hwindow : window w k n = window w k' n := by
      apply window_ext
      intro j hj
      rw [getMsbD_window k n j hj, hk (n + j) (by omega)]
    simp only [xorWindows, hrest, hwindow, hd n (by omega)]

/-- When no bit is set, the sum is empty. -/
theorem xorWindows_none (k d : Nat → Bool) (n : Nat) (h : ∀ i, i < n → d i = false) :
    xorWindows w k d n = 0 := by
  induction n with
  | zero => rfl
  | succ n ih =>
    rw [xorWindows, h n (by omega), ih fun i hi => h i (by omega)]
    rfl

/-- When only the last bit is set, the sum is the last window. -/
theorem xorWindows_last (k d : Nat → Bool) (n : Nat) (h : ∀ i, i < n → d i = false)
    (hn : d n = true) : xorWindows w k d (n + 1) = window w k n := by
  rw [xorWindows, hn, xorWindows_none k d n h, if_pos rfl]
  exact BitVec.zero_xor

/-- Keys with the same sum for the data whose last bit is set agree under the last window. -/
theorem eq_of_xorWindows_single {k k' d : Nat → Bool} {n : Nat} (h : ∀ i, i < n → d i = false)
    (hn : d n = true) (heq : xorWindows w k d (n + 1) = xorWindows w k' d (n + 1)) {j : Nat}
    (hj : j < w) : k (n + j) = k' (n + j) := by
  rw [xorWindows_last k d n h hn, xorWindows_last k' d n h hn] at heq
  rw [← getMsbD_window k n j hj, heq, getMsbD_window k' n j hj]

end Netstar.Lib
