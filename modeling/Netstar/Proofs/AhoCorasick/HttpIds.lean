import Netstar.Proofs.AhoCorasick.Aho
import Netstar.Spec.AhoCorasick.HttpIds

/-!
# `Netstar.Proofs.AhoCorasick.HttpIds`: what the scan of a payload finds

The loop looks at the outputs of a state before it reads the next byte. So it sees the state after
every part of the payload but the whole of it. A pattern that is complete only with the last byte is
not reported (`scanPayload_spec`).
-/

set_option autoImplicit false

namespace Netstar.Proofs.AhoCorasick

open Netstar.Lib
open Netstar.Spec.AhoCorasick

variable {patterns : List (List UInt8)} {label : Nat → List UInt8} {d : AhoDfa}

/-- Some pattern occurs in the text. -/
def Occurs (patterns : List (List UInt8)) (text : List UInt8) : Prop := ∃ p ∈ patterns, p <:+: text

/-- Some pattern ends where the text ends. -/
def Ends (patterns : List (List UInt8)) (text : List UInt8) : Prop := ∃ p ∈ patterns, p <:+ text

/-- An occurrence ends somewhere in the text. -/
theorem occurs_iff (text : List UInt8) : Occurs patterns text ↔ ∃ v, v <+: text ∧ Ends patterns v := by
  constructor
  · rintro ⟨p, hp, hinfix⟩
    obtain ⟨v, hsuffix, hpre⟩ := List.infix_iff_suffix_prefix.mp hinfix
    exact ⟨v, hpre, p, hp, hsuffix⟩
  · rintro ⟨v, hpre, p, hp, hsuffix⟩
    exact ⟨p, hp, List.infix_iff_suffix_prefix.mpr ⟨v, hsuffix, hpre⟩⟩

/-- The parts of a text without its last byte. -/
theorem prefix_dropLast {text v : List UInt8} (htext : text ≠ []) :
    v <+: text.dropLast ↔ v <+: text ∧ v ≠ text := by
  have hlen : text.dropLast.length < text.length := by
    have := List.length_pos_iff.mpr htext
    rw [List.length_dropLast]
    omega
  constructor
  · intro h
    refine ⟨h.trans (List.dropLast_prefix text), ?_⟩
    rintro rfl
    exact absurd h.length_le (Nat.not_le.mpr hlen)
  · rintro ⟨hpre, hne⟩
    have hshort : v.length < text.length :=
      Nat.lt_of_le_of_ne hpre.length_le fun heq => hne (hpre.eq_of_length heq)
    apply List.prefix_of_prefix_length_le hpre (List.dropLast_prefix text)
    rw [List.length_dropLast]
    omega

/-- A state has outputs when some pattern ends with its text. -/
theorem count_ne_zero_iff (hA : Automaton patterns label d.numUsedStates)
    (h : Final patterns label d.numUsedStates d) (hdone : ∀ s ≤ d.numUsedStates, Done d s)
    (w : List UInt8) : (d.root (d.run w)).output.count ≠ 0 ↔ Ends patterns w := by
  obtain ⟨hle, hlong⟩ := run_spec hA h hdone w
  have hmatched := h.matched _ hle
  rw [(d.root (d.run w)).output.count_eq, ← Nat.pos_iff_ne_zero, List.length_pos_iff_exists_mem]
  constructor
  · rintro ⟨i, hi⟩
    obtain ⟨p, hp, hsuffix⟩ := (hmatched.mem_iff i).mp hi
    have hmem := List.mem_of_getElem? hp
    exact ⟨p, hmem, (hlong.suffix_iff (.inr ⟨p, hmem, List.prefix_rfl⟩)).mpr hsuffix⟩
  · rintro ⟨p, hmem, hsuffix⟩
    obtain ⟨i, hi⟩ := List.mem_iff_getElem?.mp hmem
    refine ⟨i, (hmatched.mem_iff i).mpr ⟨p, hi, ?_⟩⟩
    exact (hlong.suffix_iff (.inr ⟨p, hmem, List.prefix_rfl⟩)).mp hsuffix

/-- The loop returns early if and only if a pattern ends before the last byte that is left. -/
theorem scanPayload_spec (hA : Automaton patterns label d.numUsedStates)
    (h : Final patterns label d.numUsedStates d) (hdone : ∀ s ≤ d.numUsedStates, Done d s)
    (content w : List UInt8) :
    ∃ r, scanPayload d (d.run w) content = .ok r ∧
      (r.2.isSome ↔ ∃ v, v <+: content ∧ v ≠ content ∧ Ends patterns (w ++ v)) := by
  induction content generalizing w with
  | nil =>
    refine ⟨_, rfl, (fun h => by cases h), ?_⟩
    rintro ⟨v, hpre, hne, -⟩
    exact absurd (List.prefix_nil.mp hpre) hne
  | cons c content ih =>
    obtain ⟨hle, -⟩ := run_spec hA h hdone w
    have hcount := count_ne_zero_iff hA h hdone w
    have hstep : (d.root (d.run w)).g c = d.run (w ++ [c]) := by
      rw [AhoDfa.run, AhoDfa.run, List.foldl_append]
      rfl
    rw [scanPayload, get_eq_ok (hA.lt_max hle), ok_bind]
    by_cases hends : Ends patterns w
    · rw [if_pos (hcount.mpr hends)]
      refine ⟨_, rfl, fun _ => ⟨[], List.nil_prefix, (fun h => by cases h), ?_⟩, fun _ => rfl⟩
      rw [List.append_nil]
      exact hends
    · rw [if_neg (mt hcount.mp hends), hstep]
      obtain ⟨r, hr, hiff⟩ := ih (w ++ [c])
      refine ⟨r, hr, hiff.trans ?_⟩
      constructor
      · rintro ⟨v, hpre, hne, hv⟩
        refine ⟨c :: v, (List.prefix_cons_inj c).mpr hpre, fun heq => hne (List.cons.inj heq).2, ?_⟩
        rwa [List.append_assoc] at hv
      · rintro ⟨v, hpre, hne, hv⟩
        cases v with
        | nil => exact absurd (List.append_nil w ▸ hv) hends
        | cons c' v =>
          obtain ⟨rfl, hrest⟩ := List.cons_prefix_cons.mp hpre
          refine ⟨v, hrest, fun heq => hne (congrArg _ heq), ?_⟩
          rwa [List.append_assoc]

/-- A table without states has no patterns. -/
theorem numUsedStates_pos (hA : Automaton patterns label d.numUsedStates) {p : List UInt8}
    (hp : p ∈ patterns) : 0 < d.numUsedStates := by
  apply Nat.pos_of_ne_zero
  intro hzero
  obtain ⟨s, hs, hlabel⟩ := (hA.nodes.mem_iff p).mp (.inr ⟨p, hp, List.prefix_rfl⟩)
  rw [hzero, Nat.le_zero] at hs
  rw [hs, hA.nodes.zero] at hlabel
  exact hA.limits.nonempty p hp hlabel.symm

/-- A new flow raises the alert if and only if a pattern occurs in the payload without its last
byte. -/
theorem processBatch_spec (hA : Automaton patterns label d.numUsedStates)
    (h : Final patterns label d.numUsedStates d) (hdone : ∀ s ≤ d.numUsedStates, Done d s)
    (content : List UInt8) :
    ∃ s mpList, processBatch d content initAutomataState [] = .ok (s, mpList) ∧
      (s.alert = true ↔ Occurs patterns content.dropLast) := by
  rw [processBatch]
  by_cases hempty : d.numUsedStates ≤ initAutomataState.state
  · -- Without states there are no patterns, and nothing is found.
    rw [if_pos hempty]
    refine ⟨_, _, rfl, nofun, ?_⟩
    rintro ⟨p, hp, -⟩
    exact absurd (numUsedStates_pos hA hp) (Nat.not_lt.mpr hempty)
  · rw [if_neg hempty]
    obtain ⟨⟨state, ids⟩, hr, hiff⟩ := scanPayload_spec hA h hdone content []
    have hr : scanPayload d initAutomataState.state content = .ok (state, ids) := hr
    have hoccurs : (∃ v, v <+: content ∧ v ≠ content ∧ Ends patterns ([] ++ v)) ↔
        Occurs patterns content.dropLast := by
      rw [occurs_iff]
      apply exists_congr
      intro v
      rw [← and_assoc, List.nil_append]
      apply and_congr_left
      rintro ⟨p, hp, hsuffix⟩
      by_cases hcontent : content = []
      · -- Only the empty text is a part of the empty payload, and no pattern ends there.
        rw [hcontent, List.dropLast_nil]
        refine ⟨fun hv => hv.1, fun hpre => ?_⟩
        rw [List.prefix_nil.mp hpre, List.suffix_nil] at hsuffix
        exact absurd hsuffix (hA.limits.nonempty p hp)
      · exact (prefix_dropLast hcontent).symm
    rw [hr, ok_bind]
    rw [hoccurs] at hiff
    cases ids with
    | none => exact ⟨_, _, rfl, ⟨nofun, fun hmatch => absurd (hiff.mpr hmatch) nofun⟩⟩
    | some ids => exact ⟨_, _, rfl, ⟨fun _ => hiff.mp rfl, fun _ => rfl⟩⟩

/-- The scan of a payload in a new flow raises the alert as it should unless the only occurrences of
patterns are at the very end of the payload. -/
theorem processBatch_correct_iff (patterns : List (List UInt8)) (hlimits : FitsLimits patterns)
    (uninit : Nat → Nat → Nat) (fuel : Nat) (hfuel : ahoMaxLength ≤ fuel) :
    ∃ dfa, ahoBuild fuel uninit patterns = .ok dfa ∧ ∀ payload, ∃ s mpList,
      processBatch dfa payload initAutomataState [] = .ok (s, mpList) ∧
      ((s.alert = true ↔ Occurs patterns payload) ↔
        (Occurs patterns payload → Occurs patterns payload.dropLast)) := by
  obtain ⟨dfa, label, hbuild, hA, hfinal, hdone⟩ := ahoBuild_spec patterns hlimits uninit hfuel
  refine ⟨dfa, hbuild, fun payload => ?_⟩
  obtain ⟨s, mpList, hbatch, halert⟩ := processBatch_spec hA hfinal hdone payload
  have hmono : Occurs patterns payload.dropLast → Occurs patterns payload := by
    rintro ⟨p, hp, hinfix⟩
    exact ⟨p, hp, hinfix.trans (List.dropLast_prefix payload).isInfix⟩
  refine ⟨s, mpList, hbatch, ?_⟩
  rw [halert]
  exact ⟨fun h => h.mpr, fun h => ⟨hmono, h⟩⟩

/-- The pattern "ab" in the payload "xab!". -/
theorem processBatch_correct_inside :
    ∃ dfa s mpList, ahoBuild ahoMaxLength (fun _ _ => 0) [[97, 98]] = .ok dfa ∧
      processBatch dfa [120, 97, 98, 33] initAutomataState [] = .ok (s, mpList) ∧
      s.alert = true := by
  have hlimits : FitsLimits [[97, 98]] := ⟨by decide, by decide, by decide, by decide⟩
  obtain ⟨dfa, hbuild, hbatch⟩ :=
    processBatch_correct_iff [[97, 98]] hlimits (fun _ _ => 0) ahoMaxLength le_rfl
  obtain ⟨s, mpList, hs, hiff⟩ := hbatch [120, 97, 98, 33]
  refine ⟨dfa, s, mpList, hbuild, hs, ?_⟩
  exact (hiff.mpr fun _ => ⟨[97, 98], by decide, by decide⟩).mpr ⟨[97, 98], by decide, by decide⟩

/-- The pattern "ab" is the payload, and the scan does not see it. -/
theorem not_processBatch_correct_end :
    ∃ dfa s mpList, ahoBuild ahoMaxLength (fun _ _ => 0) [[97, 98]] = .ok dfa ∧
      processBatch dfa [97, 98] initAutomataState [] = .ok (s, mpList) ∧
      ¬(s.alert = true ↔ Occurs [[97, 98]] [97, 98]) := by
  have hlimits : FitsLimits [[97, 98]] := ⟨by decide, by decide, by decide, by decide⟩
  obtain ⟨dfa, label, hbuild, hA, hfinal, hdone⟩ :=
    ahoBuild_spec [[97, 98]] hlimits (fun _ _ => 0) (Nat.le_refl ahoMaxLength)
  obtain ⟨s, mpList, hbatch, halert⟩ := processBatch_spec hA hfinal hdone [97, 98]
  refine ⟨dfa, s, mpList, hbuild, hbatch, fun h => ?_⟩
  have hoccurs : Occurs [[97, 98]] [97, 98] := ⟨[97, 98], by decide, by decide⟩
  obtain ⟨p, hp, hinfix⟩ := halert.mp (h.mpr hoccurs)
  rw [List.mem_singleton.mp hp] at hinfix
  exact absurd hinfix (by decide)

end Netstar.Proofs.AhoCorasick
