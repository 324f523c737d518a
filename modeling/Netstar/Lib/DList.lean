import Mathlib.Data.List.Basic

/-!
# `Netstar.Lib.DList`: doubly linked lists over indices

The nodes are numbers, `prev` and `next` are their links, and 0 is the null link. A list is kept as
the index of its first and of its last node. `DList prev next front back l` says that this list
holds the nodes `l`.

`LinkSeg` is a part of such a list: it says what the links are, with the node before the part and the
node after it given. A write to the last node of a part changes where the part leads, and a write
to its first node changes where it comes from (`LinkSeg.setLast`, `LinkSeg.setHead`). The rules for the
operations are `push` and `erase`. They take the new links as arbitrary functions that differ from
the old ones only where the operation writes.
-/

set_option autoImplicit false

namespace Netstar.Lib

/-- The links lead through the nodes, from `b` before them to `c` after them. -/
def LinkSeg (prev next : Nat → Nat) : Nat → List Nat → Nat → Prop
  | _, [], _ => True
  | b, a :: l, c => prev a = b ∧ next a = l.headD c ∧ LinkSeg prev next a l c

/-- The list with the ends `front` and `back` holds the nodes `l`. -/
structure DList (prev next : Nat → Nat) (front back : Nat) (l : List Nat) : Prop where
  front_eq : front = l.headD 0
  back_eq : back = l.getLastD 0
  seg : LinkSeg prev next 0 l 0
  nonzero : 0 ∉ l
  nodup : l.Nodup

variable {prev next prev' next' : Nat → Nat} {a b c b' c' front back : Nat} {l l₁ l₂ : List Nat}

/-- The last element of a list that is not empty is in it. -/
theorem getLastD_mem : (a :: l).getLastD b ∈ a :: l := by
  induction l generalizing a with
  | nil => simp
  | cons x l ih =>
    rw [List.getLastD_cons]
    exact List.mem_cons_of_mem a ih

namespace LinkSeg

/-- A segment depends on the links of its own nodes only. -/
theorem congr (h : LinkSeg prev next b l c)
    (hsame : ∀ i ∈ l, prev' i = prev i ∧ next' i = next i) : LinkSeg prev' next' b l c := by
  induction l generalizing b with
  | nil => exact trivial
  | cons a l ih =>
    obtain ⟨hprev, hnext, hrest⟩ := h
    obtain ⟨hp, hn⟩ := hsame a (by simp)
    exact ⟨hp.trans hprev, hn.trans hnext, ih hrest fun i hi => hsame i (by simp [hi])⟩

/-- Two segments that meet are one. -/
theorem append :
    LinkSeg prev next b (l₁ ++ l₂) c ↔
      LinkSeg prev next b l₁ (l₂.headD c) ∧ LinkSeg prev next (l₁.getLastD b) l₂ c := by
  induction l₁ generalizing b with
  | nil =>
    show LinkSeg prev next b l₂ c ↔ True ∧ LinkSeg prev next b l₂ c
    rw [true_and]
  | cons a l₁ ih =>
    have hhead : (l₁ ++ l₂).headD c = l₁.headD (l₂.headD c) := by cases l₁ <;> rfl
    have hlast : (a :: l₁).getLastD b = l₁.getLastD a := by cases l₁ <;> rfl
    show (prev a = b ∧ next a = (l₁ ++ l₂).headD c ∧ LinkSeg prev next a (l₁ ++ l₂) c) ↔ _
    rw [hhead, hlast, ih]
    show _ ↔ (prev a = b ∧ next a = l₁.headD (l₂.headD c) ∧ LinkSeg prev next a l₁ (l₂.headD c)) ∧ _
    rw [and_assoc, and_assoc]

/-- The last node gets the link `c'` to what follows. -/
theorem setLast (h : LinkSeg prev next b l c) (hnodup : l.Nodup) (hprev : ∀ i ∈ l, prev' i = prev i)
    (hnext : ∀ i ∈ l, next' i = if i = l.getLastD b then c' else next i) :
    LinkSeg prev' next' b l c' := by
  induction l generalizing b with
  | nil => exact trivial
  | cons a l ih =>
    obtain ⟨hpa, hna, hrest⟩ := h
    have hpa' : prev' a = b := (hprev a (by simp)).trans hpa
    have hna' := hnext a (by simp)
    cases l with
    | nil =>
      refine ⟨hpa', ?_, trivial⟩
      rw [hna']
      exact if_pos rfl
    | cons x l =>
      -- the last node is a later one, so the link of this node stays
      have hne : a ≠ (a :: x :: l).getLastD b := by
        intro heq
        apply (List.nodup_cons.mp hnodup).1
        rw [heq, List.getLastD_cons]
        exact getLastD_mem
      refine ⟨hpa', ?_, ih hrest (List.nodup_cons.mp hnodup).2 ?_ ?_⟩
      · rw [hna', if_neg hne]
        exact hna
      · intro i hi
        exact hprev i (by simp [hi])
      · intro i hi
        exact hnext i (by simp [hi])

/-- The first node gets the link `b'` to what precedes. -/
theorem setHead (h : LinkSeg prev next b l c) (hnodup : l.Nodup) (hnext : ∀ i ∈ l, next' i = next i)
    (hprev : ∀ i ∈ l, prev' i = if i = l.headD c then b' else prev i) :
    LinkSeg prev' next' b' l c := by
  cases l with
  | nil => exact trivial
  | cons a l =>
    obtain ⟨-, hna, hrest⟩ := h
    refine ⟨?_, (hnext a (by simp)).trans hna, hrest.congr fun i hi => ⟨?_, hnext i (by simp [hi])⟩⟩
    · rw [hprev a (by simp)]
      exact if_pos rfl
    · have hne : i ≠ a := fun heq => (List.nodup_cons.mp hnodup).1 (heq ▸ hi)
      rw [hprev i (by simp [hi])]
      exact if_neg hne

end LinkSeg

namespace DList

/-- The list depends only on the links of its nodes. -/
theorem congr (h : DList prev next front back l)
    (hsame : ∀ i ∈ l, prev' i = prev i ∧ next' i = next i) : DList prev' next' front back l :=
  ⟨h.front_eq, h.back_eq, h.seg.congr hsame, h.nonzero, h.nodup⟩

/-- The empty list. -/
theorem nil : DList prev next 0 0 [] := ⟨rfl, rfl, trivial, by simp, List.nodup_nil⟩

/-- The front is null exactly when the list is empty. -/
theorem front_eq_zero (h : DList prev next front back l) : front = 0 ↔ l = [] := by
  rw [h.front_eq]
  cases l with
  | nil => simp
  | cons a l =>
    have hne : a ≠ 0 := fun heq => h.nonzero (by simp [heq])
    simp [hne]

/-- The links of a node are its neighbours. -/
theorem links (h : DList prev next front back (l₁ ++ a :: l₂)) :
    prev a = l₁.getLastD 0 ∧ next a = l₂.headD 0 := by
  obtain ⟨-, hprev, hnext, -⟩ := LinkSeg.append.mp h.seg
  exact ⟨hprev, hnext⟩

/-- A new node at the front. -/
theorem push (h : DList prev next front back l) (ha : a ∉ l) (hzero : a ≠ 0)
    (hnext : ∀ i ∈ l, next' i = next i)
    (hprev : ∀ i ∈ l, prev' i = if i = front then a else prev i) (hna : next' a = front)
    (hpa : prev' a = 0) :
    DList prev' next' a (if front = 0 then a else back) (a :: l) := by
  refine ⟨rfl, ?_, ⟨hpa, hna.trans h.front_eq, ?_⟩, ?_, List.nodup_cons.mpr ⟨ha, h.nodup⟩⟩
  · by_cases hnil : l = []
    · rw [if_pos (h.front_eq_zero.mpr hnil), hnil]
      rfl
    · rw [if_neg (fun heq => hnil (h.front_eq_zero.mp heq)), h.back_eq]
      cases l with
      | nil => exact absurd rfl hnil
      | cons x l => rfl
  · apply h.seg.setHead h.nodup hnext
    rw [← h.front_eq]
    exact hprev
  · rw [List.mem_cons, not_or]
    exact ⟨Ne.symm hzero, h.nonzero⟩

/-- A node is taken out, wherever it is. -/
theorem erase (h : DList prev next front back (l₁ ++ a :: l₂))
    (hnext : ∀ i ∈ l₁ ++ l₂, next' i = if i = prev a then next a else next i)
    (hprev : ∀ i ∈ l₁ ++ l₂, prev' i = if i = next a then prev a else prev i) :
    DList prev' next' (if prev a = 0 then next a else front)
      (if next a = 0 then prev a else back) (l₁ ++ l₂) := by
  obtain ⟨hpa, hna⟩ := h.links
  obtain ⟨hfirst, -, -, hsecond⟩ := LinkSeg.append.mp h.seg
  have hsub : (l₁ ++ l₂).Sublist (l₁ ++ a :: l₂) := by simp
  have hnodup := h.nodup.sublist hsub
  have hnonzero : 0 ∉ l₁ ++ l₂ := fun hmem => h.nonzero (hsub.subset hmem)
  have hdisj := (List.nodup_append.mp hnodup).2.2
  refine ⟨?_, ?_, LinkSeg.append.mpr ⟨?_, ?_⟩, hnonzero, hnodup⟩
  · cases l₁ with
    | nil =>
      rw [if_pos (by rw [hpa]; rfl), hna]
      rfl
    | cons x l₁ =>
      have hne : prev a ≠ 0 := by
        intro heq
        rw [heq] at hpa
        apply hnonzero
        rw [hpa]
        exact List.mem_append_left _ getLastD_mem
      rw [if_neg hne, h.front_eq]
      rfl
  · cases l₂ with
    | nil =>
      rw [if_pos (by rw [hna]; rfl), hpa, List.append_nil]
    | cons x l₂ =>
      have hne : next a ≠ 0 := by
        intro heq
        rw [heq] at hna
        apply hnonzero
        rw [hna]
        simp
      rw [if_neg hne, h.back_eq]
      simp [List.getLastD_eq_getLast?]
  · -- the part before the node now leads to what was after it
    apply hfirst.setLast (List.nodup_append.mp hnodup).1
    · intro i hi
      rw [hprev i (by simp [hi])]
      apply if_neg
      intro heq
      -- The same at the back.
      cases l₂ with
      | nil =>
        rw [hna] at heq
        exact hnonzero (by simp [← show i = 0 from heq, hi])
      | cons x l₂ =>
        rw [hna] at heq
        exact hdisj i hi i (by simp [show i = x from heq]) rfl
    · intro i hi
      rw [hnext i (by simp [hi]), hpa, hna]
  -- and the part after it leads back to what was before it
  · apply hsecond.setHead (List.nodup_append.mp hnodup).2.1
    · intro i hi
      rw [hnext i (by simp [hi])]
      apply if_neg
      intro heq
      rw [hpa] at heq
      -- The front moves only if the node was the first one.
      cases l₁ with
      | nil => exact hnonzero (by simp [← show i = 0 from heq, hi])
      | cons x l₁ =>
        have hmem : i ∈ x :: l₁ := by
          rw [heq]
          exact getLastD_mem
        exact hdisj i hmem i hi rfl
    · intro i hi
      rw [hprev i (by simp [hi]), hpa, hna]

end DList

end Netstar.Lib
