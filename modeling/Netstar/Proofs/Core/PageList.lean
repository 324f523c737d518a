import Netstar.Lib.DList
import Netstar.Spec.Core.PageList

/-!
# `Netstar.Proofs.Core.PageList`: the operations on a list of spans

`Holds list ary l` says that the list has the spans `l`, in this order. Each operation has one rule:
what the list has afterwards, and that it writes nothing but links of the spans in the list
(`LinksOnly`).
-/

set_option autoImplicit false

namespace Netstar.Spec.Core

open Netstar.Lib

section Modify

variable {ary : PageArray} {i j : Nat} {f : Page → Page}

/-- The page that is written. -/
@[simp] theorem PageArray.modify_self : ary.modify i f i = f (ary i) := Function.update_self ..

/-- The other pages stay as they are. -/
theorem PageArray.modify_of_ne (h : j ≠ i) : ary.modify i f j = ary j := Function.update_of_ne h ..

/-- Both cases of a write. -/
theorem PageArray.modify_apply : ary.modify i f j = if j = i then f (ary j) else ary j := by
  by_cases h : j = i
  · rw [if_pos h, h, modify_self]
  · rw [if_neg h, modify_of_ne h]

end Modify

/-- A page with other links. -/
def Page.relink (p : Page) (prev next : Nat) : Page := { p with prev := prev, next := next }

/-- The new link to the span before. -/
@[simp] theorem Page.relink_prev (p : Page) (prev next : Nat) : (p.relink prev next).prev = prev :=
  rfl

/-- The new link to the span behind. -/
@[simp] theorem Page.relink_next (p : Page) (prev next : Nat) : (p.relink prev next).next = next :=
  rfl

/-- A page without its links. -/
def Page.body (p : Page) : Page := p.relink 0 0

/-- The two arrays differ at most in the links of the pages `l`. -/
structure LinksOnly (ary ary' : PageArray) (l : List Nat) : Prop where
  body : ∀ i, (ary' i).body = (ary i).body
  outside : ∀ i, i ∉ l → ary' i = ary i

namespace LinksOnly

variable {ary ary' : PageArray} {l : List Nat}

/-- The sizes of the spans stay as they are. -/
theorem spanSize (h : LinksOnly ary ary' l) (i : Nat) : (ary' i).spanSize = (ary i).spanSize :=
  (congrArg Page.spanSize (h.body i) : _)

/-- The links of every page are given, and outside of `l` they are the old ones. -/
theorem of_links {prev next : Nat → Nat}
    (h : ∀ i, ary' i = (ary i).relink (prev i) (next i))
    (hout : ∀ i, i ∉ l → prev i = (ary i).prev ∧ next i = (ary i).next) :
    LinksOnly ary ary' l := by
  constructor
  · intro i
    rw [h]
    rfl
  · intro i hi
    rw [h, (hout i hi).1, (hout i hi).2]
    rfl

end LinksOnly

namespace PageList

variable {list : PageList} {ary ary' : PageArray} {l l₁ l₂ : List Nat} {a : Nat}

/-- The list has the spans that start at the pages `l`. -/
def Holds (list : PageList) (ary : PageArray) (l : List Nat) : Prop :=
  DList (fun i => (ary i).prev) (fun i => (ary i).next) list.front list.back l

/-- A list only looks at its own pages. -/
theorem Holds.congr (h : list.Holds ary l) (hsame : ∀ i ∈ l, ary' i = ary i) :
    list.Holds ary' l :=
  DList.congr h fun i hi => by
    show (ary' i).prev = (ary i).prev ∧ (ary' i).next = (ary i).next
    rw [hsame i hi]
    exact ⟨rfl, rfl⟩

/-- A new list is empty. -/
theorem holds_create : create.Holds ary [] := DList.nil

/-- `empty` tells whether the list has spans. -/
theorem Holds.empty_iff (h : list.Holds ary l) : list.empty = true ↔ l = [] := by
  rw [empty, beq_iff_eq]
  exact DList.front_eq_zero h

/-- What `push_front` writes, in one form for the two cases. -/
theorem pushFront_eq (list : PageList) (ary : PageArray) (a : Nat) :
    (list.pushFront ary a).1 = ⟨a, if list.front = 0 then a else list.back⟩ ∧
      ∀ i, (list.pushFront ary a).2 i = (ary i).relink
        (if i = a then 0 else if list.front ≠ 0 ∧ i = list.front then a else (ary i).prev)
        (if i = a then list.front else (ary i).next) := by
  by_cases hfront : list.front = 0
  · refine ⟨by simp [pushFront, hfront], fun i => ?_⟩
    simp only [pushFront, hfront, ne_eq, not_true, if_false, false_and, PageArray.modify_apply]
    split <;> rfl
  · refine ⟨by simp [pushFront, hfront], fun i => ?_⟩
    simp only [pushFront, hfront, ne_eq, not_false_eq_true, if_true, true_and,
      PageArray.modify_apply]
    split <;> split <;> rfl

/-- `push_front` of a span that is not in the list. -/
theorem pushFront_spec (h : list.Holds ary l) (ha : a ∉ l) (hzero : a ≠ 0) :
    (list.pushFront ary a).1.Holds (list.pushFront ary a).2 (a :: l) ∧
      LinksOnly ary (list.pushFront ary a).2 (a :: l) := by
  obtain ⟨hlist, hary⟩ := pushFront_eq list ary a
  have hne : ∀ i ∈ l, i ≠ a := fun i hi heq => ha (heq ▸ hi)
  have hmem : list.front ≠ 0 → list.front ∈ l := by
    intro hfront
    cases l with
    | nil => exact absurd ((DList.front_eq_zero h).mpr rfl) hfront
    | cons x l =>
      rw [h.front_eq]
      exact List.mem_cons_self
  constructor
  · rw [hlist]
    show DList (fun i => ((list.pushFront ary a).2 i).prev)
      (fun i => ((list.pushFront ary a).2 i).next) a (if list.front = 0 then a else list.back)
      (a :: l)
    apply DList.push h ha hzero
    · intro i hi
      rw [hary, Page.relink_next, if_neg (hne i hi)]
    · intro i hi
      have hi0 : i ≠ 0 := fun heq => h.nonzero (heq ▸ hi)
      rw [hary, Page.relink_prev, if_neg (hne i hi)]
      by_cases hif : i = list.front
      · simp [← hif, hi0]
      · simp [hif]
    · rw [hary, Page.relink_next, if_pos rfl]
    · rw [hary, Page.relink_prev, if_pos rfl]
  · refine LinksOnly.of_links hary fun i hi => ?_
    rw [List.mem_cons, not_or] at hi
    refine ⟨?_, if_neg hi.1⟩
    rw [if_neg hi.1]
    apply if_neg
    rintro ⟨hne, rfl⟩
    exact hi.2 (hmem hne)

/-- What `erase` writes when the span is not its own neighbour. -/
theorem erase_eq (list : PageList) (ary : PageArray) (a : Nat) (hself : a ≠ 0 → (ary a).next ≠ a) :
    (list.erase ary a).1 = ⟨if (ary a).prev = 0 then (ary a).next else list.front,
        if (ary a).next = 0 then (ary a).prev else list.back⟩ ∧
      ∀ i, (list.erase ary a).2 i = (ary i).relink
        (if (ary a).next ≠ 0 ∧ i = (ary a).next then (ary a).prev else (ary i).prev)
        (if (ary a).prev ≠ 0 ∧ i = (ary a).prev then (ary a).next else (ary i).next) := by
  by_cases hn : (ary a).next = 0
  · by_cases hp : (ary a).prev = 0
    · refine ⟨by simp [erase, hn, hp], fun i => ?_⟩
      simp only [erase, hn, hp, ne_eq, not_true, if_false, false_and]
      rfl
    · refine ⟨by simp [erase, hn, hp], fun i => ?_⟩
      simp only [erase, hn, hp, ne_eq, not_true, not_false_eq_true, if_true, if_false,
        false_and, true_and, PageArray.modify_apply]
      split <;> rfl
  · have hne : a ≠ (ary a).next := by
      intro heq
      exact hself (fun h0 => hn (heq ▸ h0)) heq.symm
    by_cases hp : (ary a).prev = 0
    · refine ⟨by simp [erase, hn, hp, PageArray.modify_of_ne hne], fun i => ?_⟩
      simp only [erase, hn, hp, PageArray.modify_of_ne hne, ne_eq, not_true, not_false_eq_true, if_true, if_false,
        false_and, true_and, PageArray.modify_apply]
      split <;> rfl
    · refine ⟨by simp [erase, hn, hp, PageArray.modify_of_ne hne], fun i => ?_⟩
      simp only [erase, hn, hp, PageArray.modify_of_ne hne, ne_eq, not_false_eq_true, if_true,
        true_and, PageArray.modify_apply]
      split <;> split <;> rfl

/-- `erase` of a span of the list. -/
theorem erase_spec (h : list.Holds ary (l₁ ++ a :: l₂)) :
    (list.erase ary a).1.Holds (list.erase ary a).2 (l₁ ++ l₂) ∧
      LinksOnly ary (list.erase ary a).2 (l₁ ++ l₂) := by
  obtain ⟨hprev, hnext⟩ : (ary a).prev = l₁.getLastD 0 ∧ (ary a).next = l₂.headD 0 := h.links
  have hnotin : a ∉ l₁ ++ l₂ := by
    intro hmem
    rcases List.mem_append.mp hmem with hmem | hmem
    · exact (List.nodup_append.mp h.nodup).2.2 a hmem a (by simp) rfl
    · exact (List.nodup_cons.mp (List.nodup_append.mp h.nodup).2.1).1 hmem
  have hnonzero : ∀ i ∈ l₁ ++ l₂, i ≠ 0 := by
    rintro i hi rfl
    have hsub : (l₁ ++ l₂).Sublist (l₁ ++ a :: l₂) := by simp
    exact h.nonzero (hsub.subset hi)
  -- Page 0 is never in a list, so a link to it means that there is no neighbour.
  have hprevMem : (ary a).prev ≠ 0 → (ary a).prev ∈ l₁ ++ l₂ := by
    intro hne
    cases l₁ with
    | nil => exact absurd hprev hne
    | cons x l₁ =>
      rw [hprev]
      exact List.mem_append_left _ getLastD_mem
  have hnextMem : (ary a).next ≠ 0 → (ary a).next ∈ l₁ ++ l₂ := by
    intro hne
    cases l₂ with
    | nil => exact absurd hnext hne
    | cons x l₂ =>
      rw [hnext]
      simp
  obtain ⟨hlist, hary⟩ := erase_eq list ary a fun h0 heq => hnotin (by
    have hmem := hnextMem (by rw [heq]; exact h0)
    rwa [heq] at hmem)
  constructor
  · rw [hlist]
    show DList (fun i => ((list.erase ary a).2 i).prev) (fun i => ((list.erase ary a).2 i).next)
      (if (ary a).prev = 0 then (ary a).next else list.front)
      (if (ary a).next = 0 then (ary a).prev else list.back) (l₁ ++ l₂)
    apply DList.erase h
    · intro i hi
      rw [hary]
      by_cases heq : i = (ary a).prev
      · simp [← heq, hnonzero i hi]
      · simp [heq]
    · intro i hi
      rw [hary]
      by_cases heq : i = (ary a).next
      · simp [← heq, hnonzero i hi]
      · simp [heq]
  · refine LinksOnly.of_links hary fun i hi => ⟨if_neg ?_, if_neg ?_⟩
    · rintro ⟨hne, rfl⟩
      exact hi (hnextMem hne)
    · rintro ⟨hne, rfl⟩
      exact hi (hprevMem hne)

end PageList

end Netstar.Spec.Core
