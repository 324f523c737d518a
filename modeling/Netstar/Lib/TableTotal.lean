import Mathlib.Algebra.Order.Ring.Int
import Mathlib.Data.List.AList

/-!
# `Netstar.Lib.TableTotal`: the total weight of a table

`total w t` adds the weights of the values of a table. `total_eq_add_erase` takes one entry out, and
`total_insert` puts one in.
-/

set_option autoImplicit false

namespace Netstar.Lib

variable {κ α : Type} [DecidableEq κ]

/-- The sum of the weights of the values. -/
def total (w : α → Nat) (t : AList fun _ : κ => α) : Nat := (t.entries.map fun e => w e.2).sum

variable {w : α → Nat} {t : AList fun _ : κ => α} {k : κ} {v : α}

omit [DecidableEq κ] in
/-- An empty table has no weight. -/
@[simp] theorem total_empty : total w (∅ : AList fun _ : κ => α) = 0 := rfl

/-- Erasing a key that is not there changes nothing. -/
theorem erase_of_lookup_eq_none (h : t.lookup k = none) : t.erase k = t := by
  apply AList.ext
  exact List.kerase_of_notMem_keys (AList.lookup_eq_none.mp h)

/-- Inserting a key adds its weight to that of the others. -/
theorem total_insert : total w (t.insert k v) = w v + total w (t.erase k) := by
  rw [total, AList.entries_insert, List.map_cons, List.sum_cons]
  rfl

/-- The total is the weight of one key and that of the others. -/
theorem total_eq_add_erase (h : t.lookup k = some v) : total w t = w v + total w (t.erase k) := by
  have hmem : k ∈ t.entries.keys := AList.lookup_isSome.mp (by rw [h]; rfl)
  obtain ⟨v', l₁, l₂, hnot, hentries, hkerase⟩ := List.exists_of_kerase hmem
  have hv : v' = v := by
    have hlookup : t.entries.dlookup k = some v := h
    rw [hentries, List.dlookup_append, List.dlookup_eq_none.mpr hnot, List.dlookup_cons_eq] at hlookup
    exact Option.some.inj hlookup
  have herase : (t.erase k).entries = l₁ ++ l₂ := hkerase
  rw [total, total, herase, hentries, hv]
  simp only [List.map_append, List.map_cons, List.sum_append, List.sum_cons]
  omega

/-- A value weighs at most the total. -/
theorem le_total (h : t.lookup k = some v) : w v ≤ total w t := by
  rw [total_eq_add_erase h]
  exact Nat.le_add_right _ _

end Netstar.Lib
