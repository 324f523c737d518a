import Mathlib.Data.List.Perm.Basic

/-!
# `Netstar.Lib.LossyLine`: a queue that keeps the order and may lose elements

`LossyLine arrived line lost` relates what entered a queue, what is left of it in order, and what
was taken out. Nothing is reordered, and each element is at one place. `trans` composes two
stages, so a run of a queue is a chain of its steps.
-/

set_option autoImplicit false

namespace Netstar.Lib

variable {α : Type}

/-- The elements of `line` are in the order in which they arrived, and an element that arrived is
either in the line or among the lost ones. -/
structure LossyLine (arrived line lost : List α) : Prop where
  sublist : line.Sublist arrived
  perm : arrived.Perm (line ++ lost)

namespace LossyLine

variable {arrived line line' lost lost' : List α}

/-- A line may lose nothing. -/
theorem refl (l : List α) : LossyLine l l [] := ⟨.refl l, by simp⟩

/-- A part `x` of the line is lost. -/
theorem lose (a x b : List α) : LossyLine (a ++ x ++ b) (a ++ b) x where
  sublist := (List.sublist_append_left a x).append_right b
  perm := by
    rw [List.append_assoc, List.append_assoc]
    exact List.Perm.append_left a List.perm_append_comm

/-- What stands behind the line does not matter. -/
theorem append_right (h : LossyLine arrived line lost) (r : List α) :
    LossyLine (arrived ++ r) (line ++ r) lost where
  sublist := h.sublist.append_right r
  perm := by
    have hswap : (line ++ lost ++ r).Perm (line ++ r ++ lost) := by
      rw [List.append_assoc, List.append_assoc]
      exact List.perm_append_comm.append_left line
    exact (h.perm.append_right r).trans hswap

/-- A second stage reads the line of the first one and the newly arrived elements `x`. -/
theorem trans {x : List α} (h : LossyLine arrived line lost)
    (h' : LossyLine (line ++ x) line' lost') :
    LossyLine (arrived ++ x) line' (lost ++ lost') where
  sublist := h'.sublist.trans (h.sublist.append_right x)
  perm := by
    have hstep : (arrived ++ x).Perm (lost ++ (line ++ x)) := by
      rw [← List.append_assoc]
      exact (h.perm.trans List.perm_append_comm).append_right x
    have hswap : (lost ++ (line' ++ lost')).Perm (line' ++ (lost ++ lost')) := by
      rw [← List.append_assoc, ← List.append_assoc]
      exact List.perm_append_comm.append_right lost'
    exact (hstep.trans (h'.perm.append_left lost)).trans hswap

end LossyLine

end Netstar.Lib
