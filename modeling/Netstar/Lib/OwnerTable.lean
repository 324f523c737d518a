import Mathlib.Data.List.AList

/-!
# `Netstar.Lib.OwnerTable`: a table from keys to the owners of the keys

A table maps a key to the index of its owner in a list, and each owner knows its own keys. `Owns`
says that the two views agree. The rules follow the changes that keep them in agreement: an owner
changes but has the same keys (`set`), gives a key up (`set_erase`), gets a key that nobody had
(`set_insert`), or a new owner joins with its key (`push`).
-/

set_option autoImplicit false

namespace Netstar.Lib

variable {κ α : Type} [DecidableEq κ]

/-- The table maps `k` to `i` exactly when the owner at `i` has the key `k`. -/
def Owns (keyOf : α → κ → Prop) (t : AList fun _ : κ => Nat) (l : List α) : Prop :=
  ∀ k i, t.lookup k = some i ↔ ∃ x, l[i]? = some x ∧ keyOf x k

namespace Owns

variable {keyOf : α → κ → Prop} {t : AList fun _ : κ => Nat} {l : List α}

/-- A key has one owner. -/
theorem unique (h : Owns keyOf t l) {k : κ} {i j : Nat} {x y : α} (hi : l[i]? = some x)
    (hx : keyOf x k) (hj : l[j]? = some y) (hy : keyOf y k) : i = j :=
  Option.some.inj (((h k i).mpr ⟨x, hi, hx⟩).symm.trans ((h k j).mpr ⟨y, hj, hy⟩))

omit [DecidableEq κ] in
/-- The owner at `j` after an update at `i`. -/
theorem exists_set {i j : Nat} {x x' : α} (hi : l[i]? = some x) (k : κ) :
    (∃ y, (l.set i x')[j]? = some y ∧ keyOf y k) ↔
      if j = i then keyOf x' k else ∃ y, l[j]? = some y ∧ keyOf y k := by
  have hlt : i < l.length := (List.getElem?_eq_some_iff.mp hi).1
  split
  case isTrue hij =>
    subst hij
    rw [List.getElem?_set_self hlt]
    simp
  case isFalse hij => rw [List.getElem?_set_ne (Ne.symm hij)]

omit [DecidableEq κ] in
/-- The owner at an index has exactly its own keys. -/
theorem exists_self {i : Nat} {x : α} (hi : l[i]? = some x) (k : κ) :
    (∃ y, l[i]? = some y ∧ keyOf y k) ↔ keyOf x k := by
  rw [hi]
  simp

/-- An owner may be replaced by one with the same keys. -/
theorem set (h : Owns keyOf t l) {i : Nat} {x x' : α} (hi : l[i]? = some x)
    (hkeys : ∀ k, keyOf x' k ↔ keyOf x k) : Owns keyOf t (l.set i x') := by
  intro k j
  rw [h, exists_set hi]
  split
  case isTrue hij => rw [hij, exists_self hi, hkeys]
  case isFalse => rfl

/-- A key may be taken from the table and from its owner. -/
theorem set_erase (h : Owns keyOf t l) {i : Nat} {x x' : α} {k : κ} (hi : l[i]? = some x)
    (hk : keyOf x k) (hkeys : ∀ k', keyOf x' k' ↔ keyOf x k' ∧ k' ≠ k) :
    Owns keyOf (t.erase k) (l.set i x') := by
  intro k' j
  rw [exists_set hi]
  by_cases hk' : k' = k
  · subst hk'
    rw [AList.lookup_erase]
    refine iff_of_false nofun ?_
    split
    case isTrue => simp [hkeys]
    case isFalse hij =>
      rintro ⟨y, hj, hy⟩
      exact hij (h.unique hj hy hi hk)
  · rw [AList.lookup_erase_ne hk', h]
    split
    case isTrue hij => rw [hij, exists_self hi, hkeys, and_iff_left hk']
    case isFalse => rfl

/-- A free key may be given to a new owner. -/
theorem push (h : Owns keyOf t l) {x : α} {k : κ} (hfree : t.lookup k = none)
    (hkeys : ∀ k', keyOf x k' ↔ k' = k) : Owns keyOf (t.insert k l.length) (l ++ [x]) := by
  intro k' j
  have hold : (∃ y, (l ++ [x])[j]? = some y ∧ keyOf y k') ↔
      (∃ y, l[j]? = some y ∧ keyOf y k') ∨ j = l.length ∧ k' = k := by
    rcases Nat.lt_trichotomy j l.length with hlt | rfl | hgt
    · rw [List.getElem?_append_left hlt]
      simp [Nat.ne_of_lt hlt]
    · simp [hkeys]
    · rw [List.getElem?_eq_none (by simpa using Nat.succ_le_of_lt hgt),
        List.getElem?_eq_none (Nat.le_of_lt hgt)]
      simp [Nat.ne_of_gt hgt]
  rw [hold, ← h]
  by_cases hk' : k' = k
  · subst hk'
    rw [AList.lookup_insert, hfree]
    simp [eq_comm]
  · rw [AList.lookup_insert_ne hk']
    simp [hk']

end Owns

end Netstar.Lib
