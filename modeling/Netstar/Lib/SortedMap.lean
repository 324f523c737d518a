import Mathlib.Algebra.Order.Ring.Int
import Mathlib.Order.Defs.LinearOrder
import Mathlib.Data.List.Nodup

/-!
# `Netstar.Lib.SortedMap`: maps with their keys in order

A map is the list of its entries, with increasing keys. `emplace` adds an entry if its key is new, and
keeps the entry that is there otherwise. Two maps are equal if their lookups are (`ext_lookup`), and
`lookup_ofList` says that a map filled from a list has the first entry for each key.
-/

set_option autoImplicit false

namespace Netstar.Lib

variable {κ α : Type} [LinearOrder κ]

/-- Entries in the order of their keys, which are different. -/
structure SortedMap (κ α : Type) [LinearOrder κ] where
  entries : List (κ × α)
  sorted : entries.Pairwise fun e e' => e.1 < e'.1

namespace SortedMap

/-- The value of the first entry with a key. -/
def firstOf (k : κ) (es : List (κ × α)) : Option α := (es.find? fun e => e.1 = k).map Prod.snd

/-- The entry is added in its place, unless its key is there. -/
def insertNew (k : κ) (v : α) : List (κ × α) → List (κ × α)
  | [] => [(k, v)]
  | e :: es =>
    if k < e.1 then (k, v) :: e :: es else if k = e.1 then e :: es else e :: insertNew k v es

/-- The first value of a key is that of the first entry with the key. -/
theorem firstOf_cons (k : κ) (e : κ × α) (es : List (κ × α)) :
    firstOf k (e :: es) = if e.1 = k then some e.2 else firstOf k es := by
  rw [firstOf, List.find?_cons]
  by_cases h : e.1 = k
  · rw [if_pos h]
    simp [h]
  · rw [if_neg h]
    simp [h, firstOf]

/-- Without an entry there is no value. -/
theorem firstOf_eq_none {k : κ} {es : List (κ × α)} (h : ∀ e ∈ es, e.1 ≠ k) :
    firstOf k es = none := by
  rw [firstOf, List.find?_eq_none.mpr fun e hmem => by simpa using h e hmem]
  rfl

/-- The keys of the result are those that were there, and the new one. -/
theorem mem_insertNew {k : κ} {v : α} {es : List (κ × α)} {e : κ × α} (h : e ∈ insertNew k v es) :
    e ∈ es ∨ e = (k, v) := by
  induction es with
  | nil => exact .inr (List.mem_singleton.mp h)
  | cons d es ih =>
    rw [insertNew] at h
    split at h
    · rcases List.mem_cons.mp h with h | h
      · exact .inr h
      · exact .inl h
    · split at h
      · exact .inl h
      · rcases List.mem_cons.mp h with rfl | h
        · exact .inl List.mem_cons_self
        · exact (ih h).imp_left (List.mem_cons_of_mem d)

/-- Inserting keeps the keys sorted. -/
theorem insertNew_sorted (k : κ) (v : α) {es : List (κ × α)}
    (hs : es.Pairwise fun e e' => e.1 < e'.1) :
    (insertNew k v es).Pairwise fun e e' => e.1 < e'.1 := by
  induction es with
  | nil => exact List.pairwise_singleton _ _
  | cons d es ih =>
    obtain ⟨hd, hes⟩ := List.pairwise_cons.mp hs
    rw [insertNew]
    split
    · rename_i hlt
      refine List.pairwise_cons.mpr ⟨fun e hmem => ?_, hs⟩
      rcases List.mem_cons.mp hmem with rfl | hmem
      · exact hlt
      · exact lt_trans hlt (hd e hmem)
    · rename_i hge
      split
      · exact hs
      · rename_i hne
        refine List.pairwise_cons.mpr ⟨fun e hmem => ?_, ih hes⟩
        rcases mem_insertNew hmem with hmem | rfl
        · exact hd e hmem
        · exact lt_of_le_of_ne (not_lt.mp hge) (Ne.symm hne)

/-- Inserting a key that is there changes nothing. -/
theorem firstOf_insertNew (k : κ) (v : α) {es : List (κ × α)}
    (hs : es.Pairwise fun e e' => e.1 < e'.1) (k' : κ) :
    firstOf k' (insertNew k v es) =
      if k' = k then some ((firstOf k es).getD v) else firstOf k' es := by
  induction es with
  | nil =>
    rw [insertNew, firstOf_cons]
    by_cases h : k' = k
    · rw [if_pos h, if_pos h.symm]
      rfl
    · rw [if_neg h, if_neg (Ne.symm h)]
  | cons d es ih =>
    obtain ⟨hd, hes⟩ := List.pairwise_cons.mp hs
    rw [insertNew]
    split
    · rename_i hlt
      have hnone : firstOf k (d :: es) = none := by
        refine firstOf_eq_none fun e hmem => ?_
        rcases List.mem_cons.mp hmem with rfl | hmem
        · exact ne_of_gt hlt
        · exact ne_of_gt (lt_trans hlt (hd e hmem))
      rw [firstOf_cons k' (k, v), hnone]
      by_cases h : k' = k
      · rw [if_pos h, if_pos h.symm]
        rfl
      · rw [if_neg h, if_neg (Ne.symm h)]
    · split
      · rename_i hkd
        rw [firstOf_cons k, if_pos hkd.symm, firstOf_cons]
        by_cases h : k' = k
        · rw [if_pos h, if_pos (hkd.symm.trans h.symm)]
          rfl
        · rw [if_neg h]
      · rename_i hkd
        rw [firstOf_cons k', ih hes, firstOf_cons k, if_neg (Ne.symm hkd), firstOf_cons k']
        by_cases h : k' = k
        · rw [if_pos h, if_neg fun heq => hkd (heq.trans h).symm, if_pos h]
        · rw [if_neg h, if_neg h]

/-! ### Maps -/

/-- The map without entries. -/
def empty : SortedMap κ α := ⟨[], List.Pairwise.nil⟩

/-- The value of a key. -/
def lookup (m : SortedMap κ α) (k : κ) : Option α := firstOf k m.entries

/-- `map::emplace`. -/
def emplace (m : SortedMap κ α) (k : κ) (v : α) : SortedMap κ α :=
  ⟨insertNew k v m.entries, insertNew_sorted k v m.sorted⟩

/-- The entries are added in their order. -/
def fill (m : SortedMap κ α) (es : List (κ × α)) : SortedMap κ α :=
  es.foldl (fun m e => m.emplace e.1 e.2) m

/-- `emplace` adds a key only when it is not there. -/
theorem lookup_emplace (m : SortedMap κ α) (k : κ) (v : α) (k' : κ) :
    (m.emplace k v).lookup k' = if k' = k then some ((m.lookup k).getD v) else m.lookup k' :=
  firstOf_insertNew k v m.sorted k'

/-- What is there stays, and of the new entries the first one with a key counts. -/
theorem lookup_fill (m : SortedMap κ α) (es : List (κ × α)) (k : κ) :
    (m.fill es).lookup k = (m.lookup k).or (firstOf k es) := by
  induction es generalizing m with
  | nil =>
    show m.lookup k = (m.lookup k).or none
    rw [Option.or_none]
  | cons e es ih =>
    show ((m.emplace e.1 e.2).fill es).lookup k = _
    rw [ih, lookup_emplace, firstOf_cons]
    by_cases h : k = e.1
    · subst h
      rw [if_pos rfl, if_pos rfl]
      cases m.lookup e.1 with
      | none => rfl
      | some v => rfl
    · rw [if_neg h, if_neg (Ne.symm h)]

/-- Of several entries with one key the first one counts. -/
theorem lookup_fill_empty (es : List (κ × α)) (k : κ) :
    ((empty : SortedMap κ α).fill es).lookup k = firstOf k es := by
  rw [lookup_fill]
  rfl

/-- A key has a value exactly when the map has the entry. -/
theorem lookup_eq_some {m : SortedMap κ α} {k : κ} {v : α} :
    m.lookup k = some v ↔ (k, v) ∈ m.entries := by
  obtain ⟨es, hs⟩ := m
  show firstOf k es = some v ↔ (k, v) ∈ es
  induction es with
  | nil => simp [firstOf]
  | cons e es ih =>
    obtain ⟨he, hes⟩ := List.pairwise_cons.mp hs
    rw [firstOf_cons, List.mem_cons]
    by_cases h : e.1 = k
    · subst h
      rw [if_pos rfl]
      constructor
      · intro hv
        cases hv
        exact .inl rfl
      · rintro (heq | hmem)
        · exact congrArg (some ∘ Prod.snd) heq.symm
        · exact absurd (he _ hmem) (lt_irrefl _)
    · rw [if_neg h, ih hes, or_iff_right]
      intro heq
      exact h (congrArg Prod.fst heq).symm

/-- A map is what its lookups are. -/
theorem ext_lookup {m m' : SortedMap κ α} (h : ∀ k, m.lookup k = m'.lookup k) : m = m' := by
  have hmem : ∀ e, e ∈ m.entries ↔ e ∈ m'.entries := by
    rintro ⟨k, v⟩
    rw [← lookup_eq_some, ← lookup_eq_some, h]
  have hnodup : ∀ n : SortedMap κ α, n.entries.Nodup := by
    intro n
    refine List.Pairwise.imp ?_ n.sorted
    rintro a b hlt rfl
    exact lt_irrefl _ hlt
  have hperm := (List.perm_ext_iff_of_nodup (hnodup m) (hnodup m')).mpr hmem
  have hentries : m.entries = m'.entries :=
    hperm.eq_of_pairwise (fun a b _ _ hab hba => absurd hba (lt_asymm hab)) m.sorted m'.sorted
  cases m
  cases m'
  cases hentries
  rfl

/-- The entries of a map give it back. -/
theorem fill_entries (m : SortedMap κ α) : (empty : SortedMap κ α).fill m.entries = m := by
  refine ext_lookup fun k => ?_
  rw [lookup_fill_empty]
  rfl

end SortedMap

end Netstar.Lib
