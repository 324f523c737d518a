import Mathlib.Data.List.Nodup
import Mathlib.Logic.Function.Basic

/-!
# `Netstar.Lib.BackLinks`: nodes and owners that point at each other

A node has an identity and perhaps an owner. An owner that is alive has a pointer back, which is
unset or designates a node. `BackLinked` says that the two directions agree: a node designates a live
owner, and that owner designates the node. The rules follow what happens to the two kinds of objects:
nodes come and go, owners are made, are destroyed, and move to a new place.
-/

set_option autoImplicit false

namespace Netstar.Lib

variable {ι κ : Type}

/-- `back c` is `none` when `c` is not alive. -/
structure BackLinked (nodes : List (ι × Option κ)) (back : κ → Option (Option ι)) : Prop where
  nodup : (nodes.map Prod.fst).Nodup
  agree : ∀ i c, (i, some c) ∈ nodes ↔ back c = some (some i)

/-- The pointer of the owner of a node, if it has one. -/
def setBack [DecidableEq κ] (back : κ → Option (Option ι)) (owner : Option κ) (p : Option ι) :
    κ → Option (Option ι) :=
  match owner with
  | some c => Function.update back c (some p)
  | none => back

/-- The node that `p` designates gets the owner `y`. -/
def setOwner [DecidableEq ι] (nodes : List (ι × Option κ)) (p : Option ι) (y : κ) : List (ι × Option κ) :=
  nodes.map fun n => if p = some n.1 then (n.1, some y) else n

namespace BackLinked

variable {nodes : List (ι × Option κ)} {back : κ → Option (Option ι)}

/-- A node has one owner. -/
theorem owner_unique (h : BackLinked nodes back) {i : ι} {o o' : Option κ} (hin : (i, o) ∈ nodes)
    (hin' : (i, o') ∈ nodes) : o = o' :=
  congrArg Prod.snd (List.inj_on_of_nodup_map h.nodup hin hin' rfl)

/-- A node without an owner is destroyed. -/
theorem tail {i : ι} (h : BackLinked ((i, none) :: nodes) back) : BackLinked nodes back := by
  refine ⟨(List.nodup_cons.mp h.nodup).2, fun j c => ?_⟩
  rw [← h.agree, List.mem_cons]
  simp

variable [DecidableEq κ]

/-- A node is destroyed, and the pointer of its owner is reset. -/
theorem erase [DecidableEq ι] (h : BackLinked nodes back) {i : ι} {o : Option κ} (hin : (i, o) ∈ nodes) :
    BackLinked (nodes.filter fun n => n.1 != i) (setBack back o none) := by
  refine ⟨h.nodup.sublist (List.filter_sublist.map _), fun j c => ?_⟩
  rw [List.mem_filter, h.agree, bne_iff_ne]
  cases o with
  | none =>
    show back c = some (some j) ∧ j ≠ i ↔ back c = some (some j)
    rw [and_iff_left_iff_imp]
    rintro hc rfl
    have hsame := h.owner_unique hin ((h.agree j c).mpr hc)
    cases hsame
  | some d =>
    show back c = some (some j) ∧ j ≠ i ↔ Function.update back d (some none) c = some (some j)
    have hd := (h.agree i d).mp hin
    by_cases hcd : c = d
    · subst hcd
      rw [Function.update_self, hd]
      simp [eq_comm]
    · rw [Function.update_of_ne hcd, and_iff_left_iff_imp]
      rintro hc rfl
      have hsame := h.owner_unique hin ((h.agree j c).mpr hc)
      exact hcd (Option.some.inj hsame).symm

/-- A new node, whose owner designated nothing before. -/
theorem add (h : BackLinked nodes back) {i : ι} {o : Option κ} (hfresh : i ∉ nodes.map Prod.fst)
    (ho : ∀ c, o = some c → back c = some none) :
    BackLinked (nodes ++ [(i, o)]) (setBack back o (some i)) := by
  refine ⟨?_, fun j c => ?_⟩
  · rw [List.map_append]
    exact List.nodup_append'.mpr ⟨h.nodup, List.nodup_singleton _, by simpa using hfresh⟩
  · rw [List.mem_append, List.mem_singleton, h.agree]
    have hnew : ∀ d, back d = some (some j) → j ≠ i := by
      rintro d hd rfl
      exact hfresh (List.mem_map.mpr ⟨_, (h.agree j d).mpr hd, rfl⟩)
    cases o with
    | none => simp [setBack]
    | some d =>
      show _ ↔ Function.update back d (some (some i)) c = some (some j)
      by_cases hcd : c = d
      · subst hcd
        rw [Function.update_self, ho c rfl]
        simp [eq_comm]
      · rw [Function.update_of_ne hcd]
        simp [hcd]

/-- A new owner. -/
theorem construct (h : BackLinked nodes back) {c : κ} (hc : back c = none) :
    BackLinked nodes (Function.update back c (some none)) := by
  refine ⟨h.nodup, fun j d => ?_⟩
  rw [h.agree]
  by_cases hdc : d = c
  · subst hdc
    rw [Function.update_self, hc]
    simp
  · rw [Function.update_of_ne hdc]

/-- An owner that designates nothing is destroyed. -/
theorem destroy (h : BackLinked nodes back) {c : κ} (hc : back c = some none) :
    BackLinked nodes (Function.update back c none) := by
  refine ⟨h.nodup, fun j d => ?_⟩
  rw [h.agree]
  by_cases hdc : d = c
  · subst hdc
    rw [Function.update_self, hc]
    simp
  · rw [Function.update_of_ne hdc]

/-- An owner moves to a new place: the node that it designates gets the new owner, and the old one
designates nothing. -/
theorem move [DecidableEq ι] (h : BackLinked nodes back) {x y : κ} {p : Option ι} (hx : back x = some p)
    (hy : back y = none) :
    BackLinked (setOwner nodes p y)
      (Function.update (Function.update back y (some p)) x (some none)) := by
  have hxy : y ≠ x := by
    rintro rfl
    rw [hx] at hy
    cases hy
  refine ⟨?_, fun j c => ?_⟩
  · have hfst : (setOwner nodes p y).map Prod.fst = nodes.map Prod.fst := by
      rw [setOwner, List.map_map]
      refine List.map_congr_left fun n _ => ?_
      show (if p = some n.1 then (n.1, some y) else n).1 = n.1
      split <;> rfl
    rw [hfst]
    exact h.nodup
  · have hin : (j, some c) ∈ setOwner nodes p y ↔
        (p = some j ∧ c = y) ∨ (p ≠ some j ∧ back c = some (some j)) := by
      rw [setOwner, List.mem_map, ← h.agree]
      constructor
      · rintro ⟨⟨i, o⟩, hmem, heq⟩
        by_cases hp : p = some i
        · rw [if_pos hp] at heq
          cases heq
          exact .inl ⟨hp, rfl⟩
        · rw [if_neg hp] at heq
          cases heq
          exact .inr ⟨hp, hmem⟩
      · rintro (⟨hp, rfl⟩ | ⟨hp, hmem⟩)
        · have hmem := (h.agree j x).mpr (by rw [hx, hp])
          exact ⟨_, hmem, if_pos hp⟩
        · exact ⟨_, hmem, if_neg hp⟩
    rw [hin]
    by_cases hcx : c = x
    · subst hcx
      rw [Function.update_self, hx]
      simp [hxy.symm]
    · rw [Function.update_of_ne hcx]
      by_cases hcy : c = y
      · subst hcy
        rw [Function.update_self, hy]
        simp
      · rw [Function.update_of_ne hcy]
        constructor
        · rintro (⟨-, hc⟩ | ⟨-, hc⟩)
          · exact absurd hc hcy
          · exact hc
        · intro hc
          refine .inr ⟨fun hp => hcx ?_, hc⟩
          -- the node of `c` is not the one of `x`
          have hsame := h.owner_unique ((h.agree j c).mpr hc) ((h.agree j x).mpr (by rw [hx, hp]))
          exact Option.some.inj hsame

end BackLinked

end Netstar.Lib
