import Netstar.Spec.Http.UrlDecode

/-!
# `Netstar.Proofs.Http.UrlDecode`: what `url_decode` and `set_query_param` make of a query

On the digits of a valid escape `hex_to_byte` is the value of the digit, so `url_decode` decodes every
valid string (`urlDecode_eq_of_decodes`). It returns `false` only when the string ends inside an
escape (`urlDecode_eq_none`). The characters of an escape are not checked, so an escape with other
characters is taken for a byte too. `urlDecode_right_iff` is the exact condition.

In a coded query neither the ampersand nor the equals sign occurs in a key or a value. So the loop
of `set_query_param` cuts the query where its pairs were joined (`addParams_joinPairs`).
-/

set_option autoImplicit false

namespace Netstar.Proofs.Http

open Netstar.Lib.ChunkedCoding (hexValue)
open Netstar.Lib.PercentCoding
open Netstar.Spec.Http

/-! ### Digits -/

/-- The digits and their values. -/
theorem hexValue_eq_some {c : UInt8} {d : Nat} (h : hexValue c = some d) :
    (48 ≤ c.toNat ∧ c.toNat ≤ 57 ∧ d = c.toNat - 48) ∨
    (97 ≤ c.toNat ∧ c.toNat ≤ 102 ∧ d = c.toNat - 87) ∨
    (65 ≤ c.toNat ∧ c.toNat ≤ 70 ∧ d = c.toNat - 55) := by
  simp only [hexValue, UInt8.le_iff_toNat_le] at h
  split at h
  · rename_i hc
    exact .inl ⟨hc.1, hc.2, (Option.some.inj h).symm⟩
  split at h
  · rename_i hc
    exact .inr (.inl ⟨hc.1, hc.2, (Option.some.inj h).symm⟩)
  split at h
  · rename_i hc
    exact .inr (.inr ⟨hc.1, hc.2, (Option.some.inj h).symm⟩)
  · cases h

/-- A `char` below 128 is not negative. -/
theorem toInt_toInt8 {c : UInt8} (h : c.toNat < 128) : c.toInt8.toInt = c.toNat := by
  rw [← Int8.toInt_toBitVec, UInt8.toBitVec_toInt8]
  exact BitVec.toInt_eq_toNat_of_lt (by show 2 * c.toNat < 256; omega)

/-- On a digit `hex_to_byte` is the value of the digit. -/
theorem hexToByte_eq {c : UInt8} {d : Nat} (h : hexValue c = some d) :
    hexToByte c = d ∧ d < 16 := by
  have hcases := hexValue_eq_some h
  have hchar : c.toInt8.toInt = c.toNat := toInt_toInt8 (by omega)
  simp only [hexToByte, hchar]
  rcases hcases with ⟨hlo, hhi, rfl⟩ | ⟨hlo, hhi, rfl⟩ | ⟨hlo, hhi, rfl⟩
  · rw [if_neg (by omega), if_neg (by omega)]
    omega
  · rw [if_pos (by omega)]
    omega
  · rw [if_neg (by omega), if_pos (by omega)]
    omega

/-- Two digits make a byte. -/
theorem hexstrToChar_eq {hi lo : UInt8} {d e : Nat} (hhi : hexValue hi = some d)
    (hlo : hexValue lo = some e) : hexstrToChar hi lo = UInt8.ofNat (16 * d + e) := by
  obtain ⟨hd, hd'⟩ := hexToByte_eq hhi
  obtain ⟨he, he'⟩ := hexToByte_eq hlo
  rw [hexstrToChar, hd, he, UInt8.ofInt]
  congr 1
  omega

/-! ### `url_decode` -/

/-- A percent sign and two characters. -/
theorem urlDecode_escape (hi lo : UInt8) (s : List UInt8) :
    urlDecode (percent :: hi :: lo :: s) = (urlDecode s).map (hexstrToChar hi lo :: ·) := rfl

/-- A plus sign is a blank. -/
theorem urlDecode_plus (s : List UInt8) :
    urlDecode (plus :: s) = (urlDecode s).map (space :: ·) := by
  rw [urlDecode.eq_def]
  show (if plus = percent then _ else if plus = plus then _ else _) = _
  rw [if_neg (by decide), if_pos rfl]

/-- Other characters stand for themselves. -/
theorem urlDecode_raw {c : UInt8} (hpercent : c ≠ percent) (hplus : c ≠ plus) (s : List UInt8) :
    urlDecode (c :: s) = (urlDecode s).map (c :: ·) := by
  rw [urlDecode.eq_def]
  show (if c = percent then _ else if c = plus then _ else _) = _
  rw [if_neg hpercent, if_neg hplus]

/-- A percent sign needs two characters behind it. -/
theorem urlDecode_short {s : List UInt8} (hs : s.length < 2) : urlDecode (percent :: s) = none := by
  match s with
  | [] => rfl
  | [_] => rfl
  | _ :: _ :: _ => exact absurd hs (by simp)

/-- `url_decode` decodes what stands for something. -/
theorem urlDecode_eq_of_decodes {s out : List UInt8} (h : Decodes s out) :
    urlDecode s = some out := by
  induction h with
  | nil => rfl
  | escape hhi hlo _ ih =>
    rw [urlDecode_escape, ih, hexstrToChar_eq hhi hlo]
    rfl
  | plus _ ih =>
    rw [urlDecode_plus, ih]
    rfl
  | raw hpercent hplus _ ih =>
    rw [urlDecode_raw hpercent hplus, ih]
    rfl

/-- A string is empty, starts with an escape, ends inside one, or starts with another character. -/
theorem string_cases {motive : List UInt8 → Prop} (s : List UInt8) (nil : motive [])
    (escape : ∀ hi lo s, motive s → motive (percent :: hi :: lo :: s))
    (cut : ∀ s : List UInt8, s.length < 2 → motive (percent :: s))
    (other : ∀ c s, c ≠ percent → motive s → motive (c :: s)) : motive s := by
  induction hn : s.length using Nat.strongRecOn generalizing s with
  | ind n ih =>
    match s with
    | [] => exact nil
    | c :: s =>
      by_cases hc : c = percent
      · subst hc
        match s with
        | hi :: lo :: s => exact escape hi lo s (ih s.length (by simp at hn; omega) s rfl)
        | [] => exact cut [] (by decide)
        | [a] => exact cut [a] (by simp)
      · exact other c s hc (ih s.length (by simp at hn; omega) s rfl)

/-- A string with valid escapes stands for something. -/
theorem exists_decodes {s : List UInt8} (h : EscapesValid s) : ∃ out, Decodes s out := by
  induction s using string_cases with
  | nil => exact ⟨[], .nil⟩
  | escape hi lo s ih =>
    obtain ⟨hhi, hlo, hrest⟩ := escapesValid_escape.mp h
    obtain ⟨d, hd⟩ := Option.isSome_iff_exists.mp hhi
    obtain ⟨e, he⟩ := Option.isSome_iff_exists.mp hlo
    obtain ⟨out, hout⟩ := ih hrest
    exact ⟨_, .escape hd he hout⟩
  | cut s hs => exact absurd h (not_escapesValid_short hs)
  | other c s hc ih =>
    obtain ⟨out, hout⟩ := ih ((escapesValid_cons_of_ne hc).mp h)
    by_cases hplus : c = plus
    · subst hplus
      exact ⟨_, .plus hout⟩
    · exact ⟨_, .raw hc hplus hout⟩

/-- `url_decode` returns `false` only on a string that ends inside an escape. -/
theorem urlDecode_eq_none {s : List UInt8} : urlDecode s = none ↔ EscapeCutShort s := by
  constructor
  · intro h
    induction s using string_cases with
    | nil => cases h
    | escape hi lo s ih =>
      rw [urlDecode_escape, Option.map_eq_none_iff] at h
      exact .escape (ih h)
    | cut s hs => exact .cut hs
    | other c s hc ih =>
      refine .other hc (ih ?_)
      by_cases hplus : c = plus
      · subst hplus
        rwa [urlDecode_plus, Option.map_eq_none_iff] at h
      · rwa [urlDecode_raw hc hplus, Option.map_eq_none_iff] at h
  · intro h
    induction h with
    | cut hs => exact urlDecode_short hs
    | escape _ ih => rw [urlDecode_escape, ih, Option.map_none]
    | @other c s hc _ ih =>
      by_cases hplus : c = plus
      · subst hplus
        rw [urlDecode_plus, ih, Option.map_none]
      · rw [urlDecode_raw hc hplus, ih, Option.map_none]

/-- `url_decode` is right about a string that it can decode or that ends inside an escape. -/
theorem urlDecodeRight_iff (s : List UInt8) :
    UrlDecodeRight s ↔ EscapesValid s ∨ EscapeCutShort s := by
  constructor
  · rintro ⟨hvalid, -⟩
    cases h : urlDecode s with
    | none => exact .inr (urlDecode_eq_none.mp h)
    | some out => exact .inl (hvalid.mp (by rw [h]; rfl))
  · rintro (hvalid | hcut)
    · obtain ⟨out, hout⟩ := exists_decodes hvalid
      have hdecode := urlDecode_eq_of_decodes hout
      refine ⟨iff_of_true (by rw [hdecode]; rfl) hvalid, fun out' hout' => ?_⟩
      rw [hdecode] at hout'
      cases hout'
      exact hout
    · have hnone := urlDecode_eq_none.mpr hcut
      refine ⟨iff_of_false (by rw [hnone]; decide) fun hvalid => ?_, fun out hout => ?_⟩
      · obtain ⟨out, hout⟩ := exists_decodes hvalid
        rw [urlDecode_eq_of_decodes hout] at hnone
        cases hnone
      · rw [hnone] at hout
        cases hout

/-! ### `set_query_param` -/

/-- The first separator of a text is the one behind a part that has none. -/
theorem idxOf?_append_cons {a : UInt8} {l : List UInt8} (r : List UInt8) (h : a ∉ l) :
    (l ++ a :: r).idxOf? a = some l.length := by
  refine List.idxOf?_eq_some_iff.mpr ⟨by simp, by simp, fun j hj => ?_⟩
  rw [List.getElem_append_left hj]
  rintro rfl
  exact h (List.getElem_mem hj)

/-- The parameters with a pair. -/
def addPair (params : QueryParameters) (p : QueryPair) : QueryParameters :=
  Function.update params p.key (some p.value)

/-- `add_param` adds the pair of a coded piece. -/
theorem addParam_text (params : QueryParameters) (p : QueryPair) :
    addParam params p.text = addPair params p := by
  have hkey := urlDecode_eq_of_decodes p.key_encodes.decodes
  have hvalue := urlDecode_eq_of_decodes p.value_encodes.decodes
  have hnot := p.key_encodes.equals_notMem
  rw [QueryPair.text, addPair]
  split
  · rw [addParam, idxOf?_append_cons p.valueText hnot]
    simp only [List.take_left', List.length_append, List.length_cons]
    by_cases hempty : p.valueText = []
    · -- The equals sign is the last character, and the value is empty.
      have hnil : p.value = [] := Encodes.eq_nil (hempty ▸ p.value_encodes)
      rw [if_pos (by simp [hempty]), hkey, hnil]
    · have hdrop : (p.keyText ++ equals :: p.valueText).drop (p.keyText.length + 1)
          = p.valueText := by
        rw [← List.drop_drop, List.drop_left]
        rfl
      have hlength := List.length_pos_iff.mpr hempty
      rw [if_neg (by omega), hdrop, hkey, hvalue]
  · rename_i hequals
    have hnil : p.value = [] := by
      by_contra hne
      exact hequals (p.equals_of_value hne)
    rw [addParam, List.idxOf?_eq_none_iff.mpr hnot, hnil]
    dsimp only
    rw [hkey]

/-- The text of a pair has no ampersand. -/
theorem ampersand_notMem_text (p : QueryPair) : ampersand ∉ p.text := by
  rw [QueryPair.text]
  split
  · intro h
    rcases List.mem_append.mp h with h | h
    · exact p.key_encodes.ampersand_notMem h
    rcases List.mem_cons.mp h with h | h
    · exact absurd h (by decide)
    · exact p.value_encodes.ampersand_notMem h
  · exact p.key_encodes.ampersand_notMem

/-- The loop adds one pair after the other. -/
theorem addParams_joinPairs (ps : List QueryPair) (hne : ps ≠ []) (params : QueryParameters) :
    addParams params (joinPairs ps)
      = ps.foldl addPair params := by
  induction ps generalizing params with
  | nil => exact absurd rfl hne
  | cons p ps ih =>
    have hnot := ampersand_notMem_text p
    cases ps with
    | nil =>
      rw [joinPairs, addParams]
      split
      · exact addParam_text params p
      · rename_i n hn
        rw [List.idxOf?_eq_none_iff.mpr hnot] at hn
        cases hn
    | cons p' ps =>
      have hsplit := idxOf?_append_cons (joinPairs (p' :: ps)) hnot
      rw [joinPairs, addParams]
      · split
        · rename_i hn
          rw [hsplit] at hn
          cases hn
        · rename_i n hn
          rw [hsplit] at hn
          cases hn
          have hdrop : (p.text ++ ampersand :: joinPairs (p' :: ps)).drop (p.text.length + 1)
              = joinPairs (p' :: ps) := by
            rw [← List.drop_drop, List.drop_left]
            rfl
          rw [List.take_left', hdrop, addParam_text]
          · exact ih (by simp) _
          · rfl
      · simp

/-- The lookups after the pairs were added. -/
theorem foldl_update (ps : List QueryPair) (hnodup : (ps.map (·.key)).Nodup)
    (params : QueryParameters) (key value : List UInt8) :
    ps.foldl addPair params key = some value ↔
      (∃ p ∈ ps, p.key = key ∧ p.value = value) ∨
        key ∉ ps.map (·.key) ∧ params key = some value := by
  induction ps generalizing params with
  | nil => simp
  | cons p ps ih =>
    obtain ⟨hp, hps⟩ := List.nodup_cons.mp hnodup
    rw [List.foldl_cons, ih hps]
    by_cases hkey : key = p.key
    · subst hkey
      have hother : ¬ ∃ p' ∈ ps, p'.key = p.key ∧ p'.value = value := fun ⟨p', hp', heq, _⟩ =>
        hp (List.mem_map.mpr ⟨p', hp', heq⟩)
      simp only [addPair, hother, false_or, Function.update_self, hp, not_false_iff, true_and,
        Option.some.injEq, List.mem_cons, exists_eq_or_imp, List.map_cons, not_true,
        false_and, or_false]
    · have hne : ¬ p.key = key := fun h => hkey h.symm
      simp only [addPair, Function.update_of_ne hkey, List.mem_cons, exists_eq_or_imp, hne, false_and,
        false_or, List.map_cons, hkey]

/-- `set_query_param` takes a coded query apart. -/
theorem setQueryParam_right {path : List UInt8} (hpath : question ∉ path) (q : Query) :
    SetQueryParamRight path q := by
  have hdrop : (path ++ question :: q.text).drop (path.length + 1) = q.text := by
    rw [← List.drop_drop, List.drop_left]
    rfl
  have hset : setQueryParam (path ++ question :: q.text) (fun _ => none)
      = (path, addParams (fun _ => none) q.text) := by
    rw [setQueryParam, idxOf?_append_cons q.text hpath]
    dsimp only
    rw [hdrop, List.take_left' rfl]
  simp only [SetQueryParamRight, hset, true_and]
  intro key value
  rw [Query.text, addParams_joinPairs q.pairs q.ne_nil, foldl_update q.pairs q.keys_nodup]
  simp

/-- `url_decode` and `set_query_param` do what they should exactly when each percent sign of the
string is followed by two digits, or the string ends inside an escape. Queries are always taken apart
as they were put together. -/
theorem urlDecode_right_iff (s : List UInt8) :
    (UrlDecodeRight s ∧ ∀ path, question ∉ path → ∀ q, SetQueryParamRight path q) ↔
      EscapesValid s ∨ EscapeCutShort s :=
  (and_iff_left fun _ hpath q => setQueryParam_right hpath q).trans (urlDecodeRight_iff s)

/-- The string `%zz`, which `url_decode` takes for the letter `S`. -/
theorem not_urlDecodeRight_zz : ¬ UrlDecodeRight [37, 122, 122] := by
  intro h
  have hvalid := h.1.mp (by decide)
  exact absurd (escapesValid_escape.mp hvalid).1 (by decide)

end Netstar.Proofs.Http
