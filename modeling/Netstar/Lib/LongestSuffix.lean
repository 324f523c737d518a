import Mathlib.Data.List.Infix
import Mathlib.Data.Set.Basic

/-!
# `Netstar.Lib.LongestSuffix`: the longest suffix in a set of words

`LongestSuffix W w v` says that `v` is the longest suffix of `w` among the words of `W`. The rules
say how it changes when `w` grows by one letter at its end. `LongestSuffix.snoc` needs that `W` is
closed under prefixes: then the longest suffix of `w ++ [c]` depends only on `c` and on the longest
suffix of `w`, so an automaton with one state for each word of `W` can follow it.
-/

set_option autoImplicit false

namespace Netstar.Lib

variable {α : Type} {W : Set (List α)} {w v u : List α} {c : α}

/-- `v` is a suffix of `w` in `W`, and every other one is a suffix of `v`. -/
structure LongestSuffix (W : Set (List α)) (w v : List α) : Prop where
  mem : v ∈ W
  suffix : v <:+ w
  longest : ∀ u ∈ W, u <:+ w → u <:+ v

/-- A set of words that holds the prefixes of its words. -/
structure PrefixClosed (W : Set (List α)) : Prop where
  nil_mem : [] ∈ W
  of_append : ∀ v u, v ++ u ∈ W → v ∈ W

/-- A word of the set is its own longest suffix in it. -/
theorem LongestSuffix.self (h : w ∈ W) : LongestSuffix W w w :=
  ⟨h, List.suffix_rfl, fun _ _ hu => hu⟩

/-- The suffixes in the set are those of the longest one. -/
theorem LongestSuffix.suffix_iff (h : LongestSuffix W w v) (hu : u ∈ W) : u <:+ w ↔ u <:+ v :=
  ⟨h.longest u hu, fun hv => hv.trans h.suffix⟩

/-- The longest suffix of `w ++ [c]` is the one of `v ++ [c]`, for the longest suffix `v` of `w`. -/
theorem LongestSuffix.snoc (hW : PrefixClosed W) (h : LongestSuffix W w v)
    (hstep : LongestSuffix W (v ++ [c]) u) : LongestSuffix W (w ++ [c]) u := by
  refine ⟨hstep.mem, hstep.suffix.trans ?_, fun x hx hsuffix => ?_⟩
  · obtain ⟨pre, rfl⟩ := h.suffix
    exact ⟨pre, by simp⟩
  · apply hstep.longest x hx
    rcases List.suffix_concat_iff.mp hsuffix with rfl | ⟨y, rfl, hy⟩
    · exact List.nil_suffix
    · exact List.suffix_concat_iff.mpr (.inr ⟨y, rfl, h.longest y (hW.of_append _ _ hx) hy⟩)

/-- Without the whole word, only the suffixes of its tail are left. -/
theorem LongestSuffix.of_tail (hw : w ∉ W) (h : LongestSuffix W w.tail v) :
    LongestSuffix W w v := by
  refine ⟨h.mem, h.suffix.trans (List.tail_suffix w), fun u hu hsuffix => ?_⟩
  apply h.longest u hu
  cases w with
  | nil => exact hsuffix
  | cons a w =>
    rcases List.suffix_cons_iff.mp hsuffix with rfl | htail
    · exact absurd hu hw
    · exact htail

/-- A proper suffix is a suffix of the tail. -/
theorem suffix_tail_of_ne (h : u <:+ w) (hne : u ≠ w) : u <:+ w.tail := by
  cases w with
  | nil => exact h
  | cons a w => exact (List.suffix_cons_iff.mp h).resolve_left hne

/-- The longest suffix of one letter that is not a word of `W`. -/
theorem LongestSuffix.singleton (hW : PrefixClosed W) (h : [c] ∉ W) : LongestSuffix W [c] [] :=
  LongestSuffix.of_tail h (.self hW.nil_mem)

end Netstar.Lib
