import Netstar.Lib.ChunkedCoding

/-!
# `Netstar.Lib.PercentCoding`: percent-encoded strings

In the form coding of a query a plus sign stands for a space, and a percent sign with two hexadecimal
digits for a byte. `Decodes s out` says that `out` is what `s` stands for. A string stands for
something exactly when its escapes are valid, which is a condition on the position of each percent
sign (`EscapesValid`).

`Encodes enc s` says that `enc` is a coding of `s` in which the separators of a query do not occur
themselves. Any byte may be escaped, with digits of either case.
-/

set_option autoImplicit false

namespace Netstar.Lib.PercentCoding

open Netstar.Lib.ChunkedCoding (hexValue)

/-- The percent sign of an escape. -/
def percent : UInt8 := 37

/-- The plus that stands for a blank. -/
def plus : UInt8 := 43

/-- The blank. -/
def space : UInt8 := 32

/-- The ampersand between parameters. -/
def ampersand : UInt8 := 38

/-- The equals sign behind a name. -/
def equals : UInt8 := 61

/-- The question mark before the parameters. -/
def question : UInt8 := 63

/-- The first string stands for the second. -/
inductive Decodes : List UInt8 → List UInt8 → Prop where
  | nil : Decodes [] []
  | escape {hi lo : UInt8} {d e : Nat} {s out : List UInt8} (hhi : hexValue hi = some d)
      (hlo : hexValue lo = some e) (h : Decodes s out) :
      Decodes (percent :: hi :: lo :: s) (UInt8.ofNat (16 * d + e) :: out)
  | plus {s out : List UInt8} (h : Decodes s out) : Decodes (plus :: s) (space :: out)
  | raw {c : UInt8} {s out : List UInt8} (hpercent : c ≠ percent) (hplus : c ≠ PercentCoding.plus)
      (h : Decodes s out) : Decodes (c :: s) (c :: out)

/-- Each percent sign is followed by two hexadecimal digits. -/
def EscapesValid (s : List UInt8) : Prop :=
  ∀ i, s[i]? = some percent → ∃ hi lo, s[i + 1]? = some hi ∧ s[i + 2]? = some lo ∧
    (hexValue hi).isSome ∧ (hexValue lo).isSome

/-- The separators of a query and the signs of the coding. -/
def reserved : List UInt8 := [ampersand, equals, plus, percent, question]

/-- The first string is a coding of the second one, with all reserved signs escaped. -/
inductive Encodes : List UInt8 → List UInt8 → Prop where
  | nil : Encodes [] []
  | escape {hi lo : UInt8} {d e : Nat} {enc s : List UInt8} (hhi : hexValue hi = some d)
      (hlo : hexValue lo = some e) (h : Encodes enc s) :
      Encodes (percent :: hi :: lo :: enc) (UInt8.ofNat (16 * d + e) :: s)
  | raw {c : UInt8} {enc s : List UInt8} (hc : c ∉ reserved) (h : Encodes enc s) :
      Encodes (c :: enc) (c :: s)

/-! ### Valid escapes -/

/-- A character that is no percent sign starts no escape. -/
theorem escapesValid_cons_of_ne {c : UInt8} {s : List UInt8} (hc : c ≠ percent) :
    EscapesValid (c :: s) ↔ EscapesValid s := by
  constructor
  · intro h i hi
    exact h (i + 1) hi
  · intro h i hi
    cases i with
    | zero => exact absurd (Option.some.inj hi) hc
    | succ i => exact h i hi

/-- The percent sign is no hexadecimal digit. -/
theorem hexValue_percent : hexValue percent = none := by decide

/-- An escape is valid when both its digits are. -/
theorem escapesValid_escape {hi lo : UInt8} {s : List UInt8} :
    EscapesValid (percent :: hi :: lo :: s) ↔
      (hexValue hi).isSome ∧ (hexValue lo).isSome ∧ EscapesValid s := by
  constructor
  · intro h
    obtain ⟨hi', lo', hhi, hlo, hdhi, hdlo⟩ := h 0 rfl
    cases hhi
    cases hlo
    exact ⟨hdhi, hdlo, fun i hi => h (i + 3) hi⟩
  · rintro ⟨hdhi, hdlo, h⟩ i hi
    match i with
    | 0 => exact ⟨_, _, rfl, rfl, hdhi, hdlo⟩
    | 1 =>
      -- A digit is not a percent sign.
      cases hi
      rw [hexValue_percent] at hdhi
      cases hdhi
    | 2 =>
      cases hi
      rw [hexValue_percent] at hdlo
      cases hdlo
    | i + 3 => exact h i hi

/-- An escape that is cut short is not valid. -/
theorem not_escapesValid_short {s : List UInt8} (hs : s.length < 2) :
    ¬ EscapesValid (percent :: s) := by
  intro h
  obtain ⟨hi, lo, -, hlo, -⟩ := h 0 rfl
  obtain ⟨hlt, -⟩ := List.getElem?_eq_some_iff.mp hlo
  rw [List.length_cons] at hlt
  omega

/-! ### Codings -/

/-- What was encoded can be decoded. -/
theorem Encodes.decodes {enc s : List UInt8} (h : Encodes enc s) : Decodes enc s := by
  induction h with
  | nil => exact .nil
  | escape hhi hlo _ ih => exact .escape hhi hlo ih
  | raw hc _ ih =>
    refine .raw ?_ ?_ ih
    · rintro rfl
      exact hc (by decide)
    · rintro rfl
      exact hc (by decide)

/-- A separator does not occur in a coding. -/
theorem Encodes.not_mem {enc s : List UInt8} (h : Encodes enc s) {c : UInt8} (hc : c ∈ reserved)
    (hpercent : c ≠ percent) (hdigit : hexValue c = none) : c ∉ enc := by
  induction h with
  | nil => exact List.not_mem_nil
  | escape hhi hlo _ ih =>
    intro hmem
    rcases List.mem_cons.mp hmem with rfl | hmem
    · exact hpercent rfl
    rcases List.mem_cons.mp hmem with rfl | hmem
    · rw [hdigit] at hhi
      cases hhi
    rcases List.mem_cons.mp hmem with rfl | hmem
    · rw [hdigit] at hlo
      cases hlo
    · exact ih hmem
  | raw hraw _ ih =>
    intro hmem
    rcases List.mem_cons.mp hmem with rfl | hmem
    · exact hraw hc
    · exact ih hmem

/-- An encoded text has no ampersand. -/
theorem Encodes.ampersand_notMem {enc s : List UInt8} (h : Encodes enc s) : ampersand ∉ enc :=
  h.not_mem (by decide) (by decide) (by decide)

/-- An encoded text has no equals sign. -/
theorem Encodes.equals_notMem {enc s : List UInt8} (h : Encodes enc s) : equals ∉ enc :=
  h.not_mem (by decide) (by decide) (by decide)

/-- The empty text codes the empty string only. -/
theorem Encodes.eq_nil {s : List UInt8} (h : Encodes [] s) : s = [] := by
  cases h
  rfl

end Netstar.Lib.PercentCoding
