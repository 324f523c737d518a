import Mathlib.Data.Nat.ModEq

/-!
# `Netstar.Lib.Ring`: a list in consecutive slots of a ring

The slots of a ring are the positions of a list of cells, and the slot after the last one is the
first. `Holds cells start xs` says that the ring has the elements of `xs` in consecutive slots, where
`start` counts modulo the size of the ring. The rules say what a write does to `xs`: it replaces an
element, extends the list at one of its ends, or leaves it alone.
-/

set_option autoImplicit false

namespace Netstar.Lib.Ring

variable {β : Type} {cells xs : List β} {start p i j : Nat} {x : β}

/-- From `start` on, the ring has the elements of `xs`. -/
structure Holds (cells : List β) (start : Nat) (xs : List β) : Prop where
  fits : xs.length ≤ cells.length
  get : ∀ i, i < xs.length → cells[(start + i) % cells.length]? = xs[i]?

/-- Different offsets below the size of the ring are different slots. -/
theorem slot_inj {n : Nat} (hi : i < n) (hj : j < n) (h : (start + i) % n = (start + j) % n) :
    i = j := by
  have hmod : i ≡ j [MOD n] := Nat.ModEq.add_left_cancel' start h
  have heq : i % n = j % n := hmod
  rwa [Nat.mod_eq_of_lt hi, Nat.mod_eq_of_lt hj] at heq

namespace Holds

/-- An empty ring holds nothing. -/
theorem nil (cells : List β) (start : Nat) : Holds cells start [] where
  fits := Nat.zero_le _
  get := fun i hi => absurd hi (Nat.not_lt_zero i)

/-- The ring as a list, when the list starts at its first slot. -/
theorem of_take (xs rest : List β) : Holds (xs ++ rest) 0 xs where
  fits := by simp
  get := by
    intro i hi
    have hlt : i < (xs ++ rest).length := by
      rw [List.length_append]
      omega
    rw [Nat.zero_add, Nat.mod_eq_of_lt hlt, List.getElem?_append_left hi]

/-- Every slot is one of the cells. -/
theorem slot_lt (h : Holds cells start xs) (hi : i < xs.length) (k : Nat) :
    k % cells.length < cells.length :=
  Nat.mod_lt _ (Nat.lt_of_lt_of_le (Nat.zero_lt_of_lt hi) h.fits)

/-- The start matters only up to the number of cells. -/
theorem congr {start' : Nat} (h : Holds cells start xs)
    (heq : start % cells.length = start' % cells.length) : Holds cells start' xs where
  fits := h.fits
  get := by
    intro i hi
    have hslot : (start' + i) % cells.length = (start + i) % cells.length := by
      rw [Nat.add_mod, ← heq, ← Nat.add_mod]
    rw [hslot]
    exact h.get i hi

/-- A write to the slot of an element. -/
theorem set (h : Holds cells start xs) (hi : i < xs.length) (x : β) :
    Holds (cells.set ((start + i) % cells.length) x) start (xs.set i x) where
  fits := by
    rw [List.length_set, List.length_set]
    exact h.fits
  get := by
    intro j hj
    rw [List.length_set] at hj ⊢
    by_cases heq : i = j
    · subst heq
      rw [List.getElem?_set_self (h.slot_lt hi _), List.getElem?_set_self hi]
    · have hslot : (start + i) % cells.length ≠ (start + j) % cells.length := fun hmod =>
        heq (slot_inj (Nat.lt_of_lt_of_le hi h.fits) (Nat.lt_of_lt_of_le hj h.fits) hmod)
      rw [List.getElem?_set_ne hslot, List.getElem?_set_ne heq]
      exact h.get j hj

/-- A write to the slot after the last element. -/
theorem push_back (h : Holds cells start xs) (hroom : xs.length < cells.length) (x : β) :
    Holds (cells.set ((start + xs.length) % cells.length) x) start (xs ++ [x]) where
  fits := by
    rw [List.length_set, List.length_append]
    exact hroom
  get := by
    intro i hi
    rw [List.length_append, List.length_singleton] at hi
    by_cases hlast : i = xs.length
    · subst hlast
      have hlt : (start + xs.length) % cells.length < cells.length :=
        Nat.mod_lt _ (Nat.zero_lt_of_lt hroom)
      rw [List.length_set, List.getElem?_set_self hlt, List.getElem?_concat_length]
    · have hlt : i < xs.length := by omega
      have hslot : (start + xs.length) % cells.length ≠ (start + i) % cells.length := fun hmod =>
        hlast (slot_inj hroom (Nat.lt_trans hlt hroom) hmod).symm
      rw [List.length_set, List.getElem?_set_ne hslot, List.getElem?_append_left hlt]
      exact h.get i hlt

/-- A write to the slot before the first element. -/
theorem push_front {start' : Nat} (h : Holds cells start xs) (hroom : xs.length < cells.length)
    (hstart : (start' + 1) % cells.length = start % cells.length) (x : β) :
    Holds (cells.set (start' % cells.length) x) start' (x :: xs) where
  fits := by
    rw [List.length_set]
    exact hroom
  get := by
    intro i hi
    have hlt : start' % cells.length < cells.length := Nat.mod_lt _ (Nat.zero_lt_of_lt hroom)
    rw [List.length_set]
    cases i with
    | zero => rw [Nat.add_zero, List.getElem?_set_self hlt, List.getElem?_cons_zero]
    | succ i =>
      have hi' : i < xs.length := Nat.lt_of_succ_lt_succ hi
      have hnext : (start' + (i + 1)) % cells.length = (start + i) % cells.length := by
        rw [show start' + (i + 1) = (start' + 1) + i by omega, Nat.add_mod, hstart, ← Nat.add_mod]
      have hslot : (start' + 0) % cells.length ≠ (start' + (i + 1)) % cells.length := fun hmod =>
        absurd (slot_inj (Nat.zero_lt_of_lt hroom) (by omega) hmod) (by omega)
      rw [Nat.add_zero] at hslot
      rw [List.getElem?_set_ne hslot, hnext, List.getElem?_cons_succ]
      exact h.get i hi'

/-- Any consecutive part of the list, from where it starts. -/
theorem drop_take (h : Holds cells start xs) (k n : Nat) :
    Holds cells (start + k) ((xs.drop k).take n) where
  fits := by
    have hfits := h.fits
    rw [List.length_take, List.length_drop]
    omega
  get := by
    intro i hi
    rw [List.length_take, List.length_drop] at hi
    rw [Nat.add_assoc, h.get (k + i) (by omega), List.getElem?_take_of_lt (by omega),
      List.getElem?_drop]

/-- Behind its first element the ring holds the others. -/
theorem tail (h : Holds cells start (x :: xs)) : Holds cells (start + 1) xs := by
  have hdrop := h.drop_take 1 xs.length
  rwa [List.drop_succ_cons, List.drop_zero, List.take_length] at hdrop

/-- Behind its first elements the ring holds the others. -/
theorem drop (h : Holds cells start xs) (k : Nat) : Holds cells (start + k) (xs.drop k) := by
  have hdrop := h.drop_take k xs.length
  rwa [List.take_of_length_le (by rw [List.length_drop]; omega)] at hdrop

/-- The ring holds its first elements. -/
theorem take (h : Holds cells start xs) (n : Nat) : Holds cells start (xs.take n) := by
  have htake := h.drop_take 0 n
  rwa [List.drop_zero, Nat.add_zero] at htake

end Holds

end Netstar.Lib.Ring
