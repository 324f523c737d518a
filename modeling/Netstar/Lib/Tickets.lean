import Mathlib.Data.List.Perm.Basic
import Mathlib.Data.List.Range

/-!
# `Netstar.Lib.Tickets`: requests that are answered once, some answers in order

Requests are numbered in the order they arrive. Each of them is pending until it is answered, and
`log` has the answers in the order they were given. Some answers are `fair`: they may be given to a
request only when every earlier one has its answer.

`Ledger calls log pending` is the invariant. `Ledger.arrive`, `Ledger.answer` and `Ledger.answerAll`
are its rules, and `Ledger.answerNow` is the one for a request that is answered as it arrives.
-/

set_option autoImplicit false

namespace Netstar.Lib.Tickets

variable {A : Type} {fair : A → Prop} {calls : Nat} {log : List (Nat × A)} {pending : List Nat}

/-- A fair answer comes after the answers to all earlier requests. -/
def InOrder (fair : A → Prop) (log : List (Nat × A)) : Prop :=
  ∀ before k a after, log = before ++ (k, a) :: after → fair a →
    ∀ j < k, j ∈ before.map Prod.fst

/-- Of `calls` requests, those in `log` are answered and those in `pending` are not. -/
structure Ledger (fair : A → Prop) (calls : Nat) (log : List (Nat × A)) (pending : List Nat) :
    Prop where
  sorted : pending.Pairwise (· < ·)
  complete : (log.map Prod.fst ++ pending).Perm (List.range calls)
  inOrder : InOrder fair log

/-- A call that nobody before it waits for may be served next. -/
theorem InOrder.snoc (h : InOrder fair log) {k : Nat} {a : A}
    (hk : fair a → ∀ j < k, j ∈ log.map Prod.fst) : InOrder fair (log ++ [(k, a)]) := by
  intro before k' a' after heq hfair j hj
  -- The answer is the new one, or it stands in the old log.
  rcases List.eq_nil_or_concat after with rfl | ⟨after', last, rfl⟩
  · obtain ⟨rfl, hlast⟩ := List.append_inj' heq rfl
    obtain ⟨rfl, rfl⟩ : k = k' ∧ a = a' := by simpa using hlast
    exact hk hfair j hj
  · rw [← List.concat_cons, List.concat_eq_append, ← List.append_assoc] at heq
    obtain ⟨hlog, -⟩ := List.append_inj' heq rfl
    exact h before k' a' after' hlog hfair j hj

namespace Ledger

/-- Nothing was called. -/
theorem empty : Ledger fair 0 [] [] where
  sorted := List.Pairwise.nil
  complete := by simp
  inOrder := by
    intro before k a after heq
    simp at heq

/-- Only calls that were made are served or pending. -/
theorem lt_calls (h : Ledger fair calls log pending) {k : Nat}
    (hk : k ∈ log.map Prod.fst ++ pending) : k < calls :=
  List.mem_range.mp (h.complete.mem_iff.mp hk)

/-- A request arrives and has to wait. -/
theorem arrive (h : Ledger fair calls log pending) :
    Ledger fair (calls + 1) log (pending ++ [calls]) where
  sorted := by
    refine List.pairwise_append.mpr ⟨h.sorted, List.pairwise_singleton _ _, ?_⟩
    intro k hk k' hk'
    obtain rfl : k' = calls := by simpa using hk'
    exact h.lt_calls (List.mem_append_right _ hk)
  complete := by
    rw [← List.append_assoc, List.range_succ]
    exact h.complete.append_right _
  inOrder := h.inOrder

/-- A pending request gets its answer. A fair one goes to the first of them. -/
theorem answer {earlier later : List Nat} {k : Nat} {a : A}
    (h : Ledger fair calls log (earlier ++ k :: later)) (hfair : fair a → earlier = []) :
    Ledger fair calls (log ++ [(k, a)]) (earlier ++ later) where
  sorted := h.sorted.sublist ((List.sublist_cons_self k later).append_left earlier)
  complete := by
    refine List.Perm.trans ?_ h.complete
    rw [List.map_append, List.append_assoc]
    have hmiddle : (k :: (earlier ++ later)).Perm (earlier ++ k :: later) := List.perm_middle.symm
    exact hmiddle.append_left _
  inOrder := by
    refine h.inOrder.snoc fun ha j hj => ?_
    have hmem : j ∈ log.map Prod.fst ++ (earlier ++ k :: later) := by
      refine h.complete.mem_iff.mpr (List.mem_range.mpr (Nat.lt_trans hj ?_))
      exact h.lt_calls (by simp)
    rcases List.mem_append.mp hmem with hlog | hpending
    · exact hlog
    · -- The pending requests start with `k`, so `j` is not one of them.
      have hsorted := h.sorted
      rw [hfair ha, List.nil_append] at hpending hsorted
      rcases List.mem_cons.mp hpending with rfl | hlater
      · exact absurd hj (Nat.lt_irrefl _)
      · exact absurd (List.rel_of_pairwise_cons hsorted hlater) (Nat.not_lt_of_lt hj)

/-- The first pending requests get the same answer, one after the other. -/
theorem answerAll {ks later : List Nat} (a : A) (h : Ledger fair calls log (ks ++ later)) :
    Ledger fair calls (log ++ ks.map fun k => (k, a)) later := by
  induction ks generalizing log with
  | nil => simpa using h
  | cons k ks ih =>
    have hfirst : Ledger fair calls (log ++ [(k, a)]) (ks ++ later) :=
      @answer A fair calls log [] (ks ++ later) k a h fun _ => rfl
    have hrest := ih hfirst
    rwa [List.append_assoc] at hrest

/-- A request arrives and gets its answer. A fair answer needs that nobody waits. -/
theorem answerNow {a : A} (h : Ledger fair calls log pending) (hfair : fair a → pending = []) :
    Ledger fair (calls + 1) (log ++ [(calls, a)]) pending := by
  have hanswer := @answer A fair (calls + 1) log pending [] calls a h.arrive hfair
  rwa [List.append_nil] at hanswer

end Ledger

end Netstar.Lib.Tickets
