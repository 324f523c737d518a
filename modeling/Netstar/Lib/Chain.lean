import Mathlib.Logic.Function.Basic

/-!
# `Netstar.Lib.Chain`: singly linked lists in a heap

A heap maps addresses to nodes, and `next` is the link of a node. `Chain heap next p as q` says that
the links lead from `p` through the addresses `as` to `q`. A list that ends has `none` for `q`. The
rules say which writes keep a chain: those to other addresses, and those that keep the link.
-/

set_option autoImplicit false

namespace Netstar.Lib

variable {β : Type}

/-- From `p` the links lead through `as` to `q`. -/
def Chain (heap : Nat → Option β) (next : β → Option Nat) :
    Option Nat → List Nat → Option Nat → Prop
  | p, [], q => p = q
  | p, a :: as, q => p = some a ∧ ∃ c, heap a = some c ∧ Chain heap next (next c) as q

namespace Chain

variable {heap : Nat → Option β} {next : β → Option Nat} {p q r : Option Nat} {a : Nat}
  {as bs : List Nat}

/-- Chains that meet can be joined. -/
theorem append (h : Chain heap next p as q) (h' : Chain heap next q bs r) :
    Chain heap next p (as ++ bs) r := by
  induction as generalizing p with
  | nil =>
    obtain rfl : p = q := h
    exact h'
  | cons a as ih =>
    obtain ⟨hp, c, hc, hrest⟩ := h
    exact ⟨hp, c, hc, ih hrest⟩

/-- A chain can be cut at any cell. -/
theorem of_append (h : Chain heap next p (as ++ bs) r) :
    ∃ q, Chain heap next p as q ∧ Chain heap next q bs r := by
  induction as generalizing p with
  | nil => exact ⟨p, rfl, h⟩
  | cons a as ih =>
    obtain ⟨hp, c, hc, hrest⟩ := h
    obtain ⟨q, hfirst, hsecond⟩ := ih hrest
    exact ⟨q, ⟨hp, c, hc, hfirst⟩, hsecond⟩

/-- A chain depends only on the nodes it goes through. -/
theorem congr {heap' : Nat → Option β} (h : Chain heap next p as q)
    (hsame : ∀ a ∈ as, heap' a = heap a) : Chain heap' next p as q := by
  induction as generalizing p with
  | nil => exact h
  | cons b as ih =>
    obtain ⟨hp, c, hc, hrest⟩ := h
    refine ⟨hp, c, (hsame b (by simp)).trans hc, ih hrest ?_⟩
    intro a ha
    exact hsame a (List.mem_cons_of_mem b ha)

/-- A write to an address outside the chain. -/
theorem frame (h : Chain heap next p as q) (ha : a ∉ as) (v : Option β) :
    Chain (Function.update heap a v) next p as q := by
  apply h.congr
  intro b hb
  apply Function.update_of_ne
  rintro rfl
  exact ha hb

/-- A write that keeps the link of the node. -/
theorem update {c c' : β} (h : Chain heap next p as q) (hc : heap a = some c)
    (hnext : next c' = next c) : Chain (Function.update heap a (some c')) next p as q := by
  induction as generalizing p with
  | nil => exact h
  | cons b as ih =>
    obtain ⟨hp, d, hd, hrest⟩ := h
    by_cases heq : b = a
    · subst heq
      obtain rfl : c = d := Option.some.inj (hc.symm.trans hd)
      exact ⟨hp, c', Function.update_self .., by rw [hnext]; exact ih hrest⟩
    · exact ⟨hp, d, by rw [Function.update_of_ne heq]; exact hd, ih hrest⟩

/-- The first address is where the chain starts. -/
theorem head_eq (h : Chain heap next p as none) : p = as.head? := by
  cases as with
  | nil => exact h
  | cons a as => exact h.1

/-- Every cell of a chain is in the heap. -/
theorem mem_heap (h : Chain heap next p as q) (ha : a ∈ as) : ∃ c, heap a = some c := by
  induction as generalizing p with
  | nil => cases ha
  | cons b as ih =>
    obtain ⟨-, c, hc, hrest⟩ := h
    rcases List.mem_cons.mp ha with rfl | hmem
    · exact ⟨c, hc⟩
    · exact ih hrest hmem

/-- The last node of a chain is made to point to `r`. -/
theorem relink (h : Chain heap next p (as ++ [a]) q) (hnodup : (as ++ [a]).Nodup) (c' : β) :
    Chain (Function.update heap a (some c')) next p (as ++ [a]) (next c') := by
  obtain ⟨s, hfirst, hs, -⟩ := h.of_append
  have hnot : a ∉ as := by
    intro hmem
    exact (List.nodup_append.mp hnodup).2.2 a hmem a (by simp) rfl
  exact (hfirst.frame hnot _).append ⟨hs, c', Function.update_self .., rfl⟩

end Chain

end Netstar.Lib
