import Netstar.Proofs.AhoCorasick.Failures

/-!
# `Netstar.Proofs.AhoCorasick.Aho`: the completed automaton

`aho_preprocess_dfa` completes `G` in place. It reads states that are complete already and states
that are not. `Goto` covers both: a transition that is not missing goes to the longest suffix that
has a state, whether the trie or the completion has put it there. `aho_correct` states the result of
the whole construction.

`out_arr` holds 16 bits of an index. So the result about the outputs is for at most `2^16` patterns, and
`not_aho_correct_index` shows that more patterns go wrong.
-/

set_option autoImplicit false

namespace Netstar.Proofs.AhoCorasick

open Netstar.Lib
open Netstar.Spec.AhoCorasick

variable {patterns : List (List UInt8)} {label : Nat → List UInt8} {n : Nat} {d : AhoDfa}

/-- The failure states and the output queues of all states are final. -/
structure Final (patterns : List (List UInt8)) (label : Nat → List UInt8) (n : Nat) (d : AhoDfa) :
    Prop where
  used : d.numUsedStates = n
  goto : Goto patterns label n d
  fail : ∀ s ≤ n, s ≠ 0 → FailOk patterns label n d s
  matched : ∀ s ≤ n, Matches patterns (label s) (d.root s).output.nodes

/-- When every state is linked, failures and outputs are those of the algorithm. -/
theorem Linked.final (hA : Automaton patterns label n) {linked : List Nat}
    (h : Linked patterns label n d linked) (hall : ∀ s ≤ n, s ≠ 0 → s ∈ linked) :
    Final patterns label n d where
  used := h.used
  goto := h.transitions.goto hA
  fail s hs hs0 := h.fail s (hall s hs hs0)
  matched s hs := by
    apply h.matches_of hA
    by_cases hs0 : s = 0
    · exact .inl hs0
    · exact .inr (hall s hs hs0)

/-! ### Copying the outputs -/

/-- No state has too many outputs. -/
theorem Final.count_lt (hA : Automaton patterns label n) (h : Final patterns label n d) {s : Nat}
    (hs : s ≤ n) : (d.root s).output.count < ahoMaxOutputs := by
  rw [(d.root s).output.count_eq]
  exact (h.matched s hs).length_lt hA hs

/-- The copy of a list of outputs into `out_arr`, each as a `uint16_t`. -/
theorem copyOutputs_spec :
    ∀ (nodes : List Nat) (outArr : Nat → Nat) (j : Nat),
      ∃ outArr', copyOutputs outArr j nodes.length nodes = .ok outArr' ∧
        (List.range nodes.length).map (fun k => outArr' (j + k)) = nodes.map toU16 ∧
        ∀ k < j, outArr' k = outArr k := by
  intro nodes
  induction nodes with
  | nil =>
    intro outArr j
    exact ⟨outArr, rfl, rfl, fun _ _ => rfl⟩
  | cons data nodes ih =>
    intro outArr j
    obtain ⟨outArr', hrun, hmap, hlow⟩ := ih (Function.update outArr j (toU16 data)) (j + 1)
    refine ⟨outArr', hrun, ?_, fun k hk => ?_⟩
    · rw [List.length_cons, List.range_succ_eq_map, List.map_cons, List.map_map, List.map_cons,
        ← hmap, Nat.add_zero, hlow j (Nat.lt_succ_self j), Function.update_self]
      simp only [Function.comp_def, Nat.succ_eq_add_one, Nat.add_assoc, Nat.add_comm 1]
    · rw [hlow k (by omega), Function.update_of_ne (by omega)]

/-- The entries of the array are 16 bits wide, and the indices of that many patterns fit. -/
theorem Matches.map_toU16 (hcount : patterns.length ≤ 2 ^ 16) {w : List UInt8}
    {l : List Nat} (h : Matches patterns w l) : l.map toU16 = l := by
  have hid : ∀ i ∈ l, toU16 i = id i := by
    intro i hi
    obtain ⟨p, hp, _⟩ := (h.mem_iff i).mp hi
    have hlt := (List.getElem?_eq_some_iff.mp hp).1
    exact Nat.mod_eq_of_lt (hlt.trans_le hcount)
  rw [List.map_congr_left hid, List.map_id]

/-! ### Completing the transitions -/

/-- The two tables have the same outputs, and the second one keeps the transitions that are not
missing. -/
structure Completes (d d' : AhoDfa) : Prop where
  output : ∀ s, (d'.root s).output = (d.root s).output
  outArr : ∀ s, (d'.root s).outArr = (d.root s).outArr
  g : ∀ s c, (d.root s).g c ≠ ahoFail → (d'.root s).g c = (d.root s).g c

/-- Nothing was filled in. -/
theorem Completes.refl (d : AhoDfa) : Completes d d :=
  ⟨fun _ => rfl, fun _ => rfl, fun _ _ _ => rfl⟩

/-- What is filled in stays. -/
theorem Completes.trans {d₁ d₂ : AhoDfa} (h : Completes d d₁) (h' : Completes d₁ d₂) :
    Completes d d₂ where
  output s := (h'.output s).trans (h.output s)
  outArr s := (h'.outArr s).trans (h.outArr s)
  g s c hne := by
    have hg := h.g s c hne
    rw [h'.g s c (hg ▸ hne), hg]

/-- The table after `st_arr[i].G[c] = next`. -/
def setG (d : AhoDfa) (i : Nat) (c : UInt8) (next : Nat) : AhoDfa where
  numUsedStates := d.numUsedStates
  root := Function.update d.root i { d.root i with g := Function.update (d.root i).g c next }

/-- A transition is written into one state. -/
theorem root_setG_of_ne {i s : Nat} (h : s ≠ i) (c : UInt8) (next : Nat) :
    (setG d i c next).root s = d.root s :=
  Function.update_of_ne h _ _

/-- The transitions of that state. -/
theorem g_setG_self (i : Nat) (c : UInt8) (next : Nat) :
    ((setG d i c next).root i).g = Function.update (d.root i).g c next := by
  simp [setG]

/-- A transition leaves the other fields of the states as they are. -/
theorem setG_fields (i : Nat) (c : UInt8) (next s : Nat) :
    ((setG d i c next).root s).f = (d.root s).f ∧
      ((setG d i c next).root s).output = (d.root s).output ∧
      ((setG d i c next).root s).outArr = (d.root s).outArr := by
  by_cases hs : s = i
  · subst hs
    simp [setG]
  · rw [root_setG_of_ne hs]
    exact ⟨rfl, rfl, rfl⟩

/-- A missing transition is filled in. -/
theorem completes_setG {i : Nat} {c : UInt8} (next : Nat) (h : (d.root i).g c = ahoFail) :
    Completes d (setG d i c next) := by
  refine ⟨fun s => (setG_fields ..).2.1, fun s => (setG_fields ..).2.2, fun s x hne => ?_⟩
  by_cases hs : s = i
  · subst hs
    rw [g_setG_self]
    refine Function.update_of_ne ?_ _ _
    rintro rfl
    exact hne h
  · rw [root_setG_of_ne hs]

/-- A transition to the longest suffix keeps the automaton as it is. -/
theorem final_setG (h : Final patterns label n d) {i next : Nat} {c : UInt8} (hnext : next ≤ n)
    (hlong : LongestSuffix (prefixesOf patterns) (label i ++ [c]) (label next)) :
    Final patterns label n (setG d i c next) := by
  refine ⟨h.used, fun s hs x => ?_, fun s hs hs0 => ?_, fun s hs => ?_⟩
  · by_cases hsi : s = i
    · subst hsi
      rw [g_setG_self]
      by_cases hx : x = c
      · subst hx
        rw [Function.update_self]
        exact .inr ⟨hnext, hlong⟩
      · rw [Function.update_of_ne hx]
        exact h.goto s hs x
    · rw [root_setG_of_ne hsi]
      exact h.goto s hs x
  · rw [FailOk, (setG_fields ..).1]
    exact h.fail s hs hs0
  · rw [(setG_fields ..).2.1]
    exact h.matched s hs

/-- The loop over the transitions of state `i` leaves none of them missing. -/
theorem completeState_spec (hA : Automaton patterns label n) {fuel i : Nat}
    (hfuel : ahoMaxLength ≤ fuel) (hi : i ≤ n) :
    ∀ (cs : List UInt8) (d : AhoDfa), Final patterns label n d →
      ∃ d', completeState fuel i d cs = .ok d' ∧ Final patterns label n d' ∧ Completes d d' ∧
        ∀ c ∈ cs, (d'.root i).g c ≠ ahoFail := by
  intro cs
  induction cs with
  | nil =>
    intro d h
    exact ⟨d, rfl, h, .refl d, by simp⟩
  | cons c cs ih =>
    intro d h
    have hget : d.get i = .ok (d.root i) := get_eq_ok (hA.lt_max hi)
    by_cases hmissing : (d.root i).g c = ahoFail
    · -- The transition is missing: the failure chain gives it, and writing it keeps the invariant.
      obtain ⟨t, ht, hrun, hle, hlong⟩ := followFailures_spec hA h.goto c fuel i hi
        ((hA.length_le hi).trans hfuel) fun t ht ht0 _ => h.fail t ht ht0
      have hset := completes_setG ((d.root t).g c) hmissing
      obtain ⟨d', hrest, h', hcompletes, hfull⟩ := ih _ (final_setG h hle hlong)
      refine ⟨d', ?_, h', hset.trans hcompletes, ?_⟩
      · simp only [completeState, hget, ok_bind, if_neg (not_not.mpr hmissing), hrun,
          get_eq_ok (hA.lt_max ht), hA.toU16_eq hle, modify_eq_ok _ (hA.lt_max hi)]
        exact hrest
      · intro x hx
        rcases List.mem_cons.mp hx with rfl | hx
        · have hg : ((setG d i x ((d.root t).g x)).root i).g x = (d.root t).g x := by
            rw [g_setG_self, Function.update_self]
          have hne := hA.ne_fail hle
          rw [← hg] at hne
          -- The rest of the loop leaves a transition alone that is not `FAIL`.
          rw [hcompletes.g i x hne]
          exact hne
        · exact hfull x hx
    · obtain ⟨d', hrest, h', hcompletes, hfull⟩ := ih d h
      refine ⟨d', ?_, h', hcompletes, ?_⟩
      · simp only [completeState, hget, ok_bind, if_pos hmissing]
        exact hrest
      · intro x hx
        rcases List.mem_cons.mp hx with rfl | hx
        · rw [hcompletes.g i x hmissing]
          exact hmissing
        · exact hfull x hx

/-- A state is done: no transition is missing, and the array holds the outputs, cut to its width. -/
structure Done (d : AhoDfa) (s : Nat) : Prop where
  full : ∀ c, (d.root s).g c ≠ ahoFail
  copied : d.outputs s = (d.root s).output.nodes.map toU16

/-- The table after the outputs of state `i` were copied. -/
def setOutArr (d : AhoDfa) (i : Nat) (outArr : Nat → Nat) : AhoDfa where
  numUsedStates := d.numUsedStates
  root := Function.update d.root i { d.root i with outArr := outArr }

/-- `out_arr` is apart from the other fields. -/
theorem setOutArr_fields (i : Nat) (outArr : Nat → Nat) (s : Nat) :
    ((setOutArr d i outArr).root s).g = (d.root s).g ∧
      ((setOutArr d i outArr).root s).f = (d.root s).f ∧
      ((setOutArr d i outArr).root s).output = (d.root s).output ∧
      ((setOutArr d i outArr).root s).outArr = if s = i then outArr else (d.root s).outArr := by
  by_cases hs : s = i
  · subst hs
    simp [setOutArr]
  · simp [setOutArr, hs]

/-- The automaton does not depend on `out_arr`. -/
theorem final_setOutArr (h : Final patterns label n d) (i : Nat) (outArr : Nat → Nat) :
    Final patterns label n (setOutArr d i outArr) := by
  refine ⟨h.used, fun s hs x => ?_, fun s hs hs0 => ?_, fun s hs => ?_⟩
  · rw [(setOutArr_fields ..).1]
    exact h.goto s hs x
  · rw [FailOk, (setOutArr_fields ..).2.1]
    exact h.fail s hs hs0
  · rw [(setOutArr_fields ..).2.2.1]
    exact h.matched s hs

/-- One round of the loop of `aho_preprocess_dfa`. -/
theorem preprocessStates_cons (hA : Automaton patterns label n) {fuel i : Nat}
    (hfuel : ahoMaxLength ≤ fuel) (hi : i ≤ n) (states : List Nat) (h : Final patterns label n d) :
    ∃ d', preprocessStates fuel d (i :: states) = preprocessStates fuel d' states ∧
      Final patterns label n d' ∧ Done d' i ∧ ∀ s, s ≠ i → Done d s → Done d' s := by
  obtain ⟨outArr, hcopy, hmap, _⟩ := copyOutputs_spec (d.root i).output.nodes (d.root i).outArr 0
  rw [← (d.root i).output.count_eq] at hcopy
  obtain ⟨d', hcomplete, h', hcompletes, hfull⟩ :=
    completeState_spec hA hfuel hi alphabet _ (final_setOutArr h i outArr)
  have houtputs : ∀ s, d'.outputs s =
      (List.range (d.root s).output.count).map (if s = i then outArr else (d.root s).outArr) := by
    intro s
    rw [AhoDfa.outputs, hcompletes.output, hcompletes.outArr, (setOutArr_fields ..).2.2.1,
      (setOutArr_fields ..).2.2.2]
  have hnodes : ∀ s, (d'.root s).output.nodes = (d.root s).output.nodes := by
    intro s
    rw [hcompletes.output, (setOutArr_fields ..).2.2.1]
  refine ⟨d', ?_, h', ⟨fun c => hfull c (mem_alphabet c), ?_⟩, fun s hs hdone => ⟨?_, ?_⟩⟩
  · have hcount : check ((d.root i).output.count < ahoMaxOutputs) = .ok () :=
      check_eq_ok (by simpa using h.count_lt hA hi)
    simp only [preprocessStates, get_eq_ok (hA.lt_max hi), ok_bind, hcount, hcopy,
      modify_eq_ok _ (hA.lt_max hi)]
    rw [← ok_bind d' (fun d => preprocessStates fuel d states), ← hcomplete]
    rfl
  · rw [houtputs, hnodes, if_pos rfl, (d.root i).output.count_eq]
    simpa using hmap
  · intro c
    have hg := hcompletes.g s c
    rw [(setOutArr_fields ..).1] at hg
    rw [hg (hdone.full c)]
    exact hdone.full c
  · rw [houtputs, hnodes, if_neg hs]
    exact hdone.copied

/-- The pass over the states fills in their transitions and their `out_arr`. -/
theorem preprocessStates_spec (hA : Automaton patterns label n) {fuel : Nat}
    (hfuel : ahoMaxLength ≤ fuel) :
    ∀ (states : List Nat) (d : AhoDfa), Final patterns label n d → (∀ s ∈ states, s ≤ n) →
      ∃ d', preprocessStates fuel d states = .ok d' ∧ Final patterns label n d' ∧
        (∀ s ∈ states, Done d' s) ∧ ∀ s, Done d s → Done d' s := by
  intro states
  induction states with
  | nil =>
    intro d h _
    exact ⟨d, rfl, h, by simp, fun _ hdone => hdone⟩
  | cons i states ih =>
    intro d h hstates
    obtain ⟨d₁, hround, h₁, hdone, hkeep⟩ :=
      preprocessStates_cons hA hfuel (hstates i (by simp)) states h
    obtain ⟨d', hrun, h', hdone', hkeep'⟩ := ih d₁ h₁ fun s hs =>
      hstates s (List.mem_cons_of_mem i hs)
    refine ⟨d', hround.trans hrun, h', fun s hs => ?_, fun s hs => ?_⟩
    · rcases List.mem_cons.mp hs with rfl | hs
      · exact hkeep' s hdone
      · exact hdone' s hs
    · apply hkeep' s
      by_cases hsi : s = i
      · exact hsi ▸ hdone
      · exact hkeep s hsi hs

/-! ### Matching -/

/-- The state that a text reaches stands for its longest suffix. -/
theorem run_spec (hA : Automaton patterns label n) (h : Final patterns label n d)
    (hdone : ∀ s ≤ n, Done d s) (text : List UInt8) :
    d.run text ≤ n ∧ LongestSuffix (prefixesOf patterns) text (label (d.run text)) := by
  induction text using List.reverseRecOn with
  | nil =>
    refine ⟨Nat.zero_le n, ?_⟩
    rw [AhoDfa.run, List.foldl_nil, hA.nodes.zero]
    exact .self (.inl rfl)
  | append_singleton text c ih =>
    obtain ⟨hle, hlong⟩ := ih
    have hstep : d.run (text ++ [c]) = (d.root (d.run text)).g c := by
      simp [AhoDfa.run]
    obtain ⟨hle', hlong'⟩ := (h.goto _ hle c).resolve_left fun hfail =>
      (hdone _ hle).full c hfail.1
    rw [hstep]
    exact ⟨hle', hlong.snoc (prefixClosed_prefixesOf patterns) hlong'⟩

/-- Within the limits, the construction ends with a table whose used states are final and complete. -/
theorem ahoBuild_spec (patterns : List (List UInt8)) (hlimits : FitsLimits patterns)
    (uninit : Nat → Nat → Nat) {fuel : Nat} (hfuel : ahoMaxLength ≤ fuel) :
    ∃ dfa label, ahoBuild fuel uninit patterns = .ok dfa ∧
      Automaton patterns label dfa.numUsedStates ∧
      Final patterns label dfa.numUsedStates dfa ∧ ∀ s ≤ dfa.numUsedStates, Done dfa s := by
  obtain ⟨label, d₁, hadd, htrie, hown⟩ := addPatterns_spec hlimits patterns [] _ (ahoInit uninit)
    rfl (trie_ahoInit uninit) ⟨fun _ _ => rfl, fun _ _ => rfl⟩
  have hA : Automaton patterns label d₁.numUsedStates := ⟨hlimits, htrie.nodes⟩
  obtain ⟨d₂, linked, hbuild, hlinked, hall⟩ := ahoBuildFf_spec hA rfl htrie hown hfuel
  obtain ⟨d₃, hprep, hfinal, hdone, _⟩ := preprocessStates_spec hA hfuel
    (List.range (d₂.numUsedStates + 1)) d₂ (hlinked.final hA hall) fun s hs => by
      rw [List.mem_range, hlinked.used] at hs
      omega
  refine ⟨d₃, label, ?_, hfinal.used ▸ hA, hfinal.used ▸ hfinal, fun s hs => ?_⟩
  · simp only [ahoBuild, List.length_nil] at hadd ⊢
    rw [hadd, ok_bind, hbuild, ok_bind]
    exact hprep
  · apply hdone s
    rw [List.mem_range, hlinked.used]
    rw [hfinal.used] at hs
    omega

/-- Within the limits that the code asserts, the construction terminates without a failed assertion
or an access outside the table. Every transition of the used states is a used state. With at most `2^16`
patterns, the state that a prefix of a text reaches has in `out_arr` the indices of the patterns that
are suffixes of this prefix, each once. -/
theorem aho_correct (patterns : List (List UInt8)) (hlimits : FitsLimits patterns)
    (uninit : Nat → Nat → Nat) (fuel : Nat) (hfuel : ahoMaxLength ≤ fuel) :
    ∃ dfa, ahoBuild fuel uninit patterns = .ok dfa ∧
      (∀ s ≤ dfa.numUsedStates, ∀ c, (dfa.root s).g c ≤ dfa.numUsedStates) ∧
      (patterns.length ≤ 2 ^ 16 → ∀ text w, w <+: text → (dfa.outputs (dfa.run w)).Nodup ∧
        ∀ i, i ∈ dfa.outputs (dfa.run w) ↔ ∃ p, patterns[i]? = some p ∧ p <:+ w) := by
  obtain ⟨dfa, label, hbuild, hA, hfinal, hdone⟩ := ahoBuild_spec patterns hlimits uninit hfuel
  refine ⟨dfa, hbuild, fun s hs c => ?_, fun hcount text w _ => ?_⟩
  · exact ((hfinal.goto s hs c).resolve_left fun hfail => (hdone s hs).full c hfail.1).1
  · obtain ⟨hle, hlong⟩ := run_spec hA hfinal hdone w
    have hmatched := hfinal.matched _ hle
    rw [(hdone _ hle).copied, hmatched.map_toU16 hcount]
    refine ⟨hmatched.nodup, fun i => ?_⟩
    rw [hmatched.mem_iff]
    refine exists_congr fun p => and_congr_right fun hp => (hlong.suffix_iff ?_).symm
    exact .inr ⟨p, List.mem_of_getElem? hp, List.prefix_rfl⟩

/-- The patterns "he", "she", "his" and "hers". The text "ushers" ends with "hers" only, and its
prefix "ushe" ends with "she" and "he". -/
theorem aho_correct_ushers :
    ∃ dfa, ahoBuild ahoMaxLength (fun _ _ => 0)
        [[104, 101], [115, 104, 101], [104, 105, 115], [104, 101, 114, 115]] = .ok dfa ∧
      (dfa.outputs (dfa.run [117, 115, 104, 101, 114, 115])).Perm [3] ∧
      (dfa.outputs (dfa.run [117, 115, 104, 101])).Perm [0, 1] := by
  have hlimits : FitsLimits [[104, 101], [115, 104, 101], [104, 105, 115], [104, 101, 114, 115]] :=
    ⟨by decide, by decide, by decide, by decide⟩
  obtain ⟨dfa, hbuild, _, hmatch⟩ := aho_correct _ hlimits (fun _ _ => 0) ahoMaxLength le_rfl
  obtain ⟨hnodup, hmem⟩ := hmatch (by decide) _ [117, 115, 104, 101, 114, 115] List.prefix_rfl
  obtain ⟨hnodup', hmem'⟩ := hmatch (by decide) _ [117, 115, 104, 101] List.prefix_rfl
  refine ⟨dfa, hbuild, ?_, ?_⟩
  · rw [List.perm_ext_iff_of_nodup hnodup (by decide)]
    intro i
    rw [hmem]
    rcases i with _ | _ | _ | _ | i <;> simp <;> decide
  · rw [List.perm_ext_iff_of_nodup hnodup' (by decide)]
    intro i
    rw [hmem']
    rcases i with _ | _ | _ | _ | i <;> simp <;> decide

/-- The words `"\0\0"`, ..., `"?\255"`. -/
def words : List (List UInt8) :=
  (List.range (64 * 256)).map fun n => [UInt8.ofNat (n / 256), UInt8.ofNat (n % 256)]

/-- Five copies of each word. The last copy of the first word has the index `2^16`. -/
def manyPatterns : List (List UInt8) := words ++ words ++ words ++ words ++ words

/-- The words of two bytes, each once. -/
theorem nodup_words : words.Nodup := by
  refine List.Nodup.map_on (fun n hn m hm heq => ?_) List.nodup_range
  rw [List.mem_range] at hn hm
  obtain ⟨hhigh, hlow⟩ : UInt8.ofNat (n / 256) = UInt8.ofNat (m / 256) ∧
      UInt8.ofNat (n % 256) = UInt8.ofNat (m % 256) := by simpa using heq
  have hdiv := congrArg UInt8.toNat hhigh
  have hmod := congrArg UInt8.toNat hlow
  rw [UInt8.toNat_ofNat', UInt8.toNat_ofNat'] at hdiv hmod
  omega

/-- They have two bytes. -/
theorem length_of_mem_words {w : List UInt8} (h : w ∈ words) : w.length = 2 := by
  obtain ⟨n, -, rfl⟩ := List.mem_map.mp h
  rfl

/-- The patterns are among these words. -/
theorem mem_manyPatterns {w : List UInt8} (h : w ∈ manyPatterns) : w ∈ words := by
  simpa [manyPatterns] using h

/-- Each word ends with the five patterns that are equal to it. -/
theorem outputs_manyPatterns {p w : List UInt8} (hp : p ∈ words) (hw : w <+: p) :
    (manyPatterns.filter (· <:+ w)).length ≤ 5 := by
  have hone : (words.filter (· <:+ w)).length ≤ 1 := by
    refine Nat.le_trans ?_ (List.nodup_iff_count_le_one.mp nodup_words w)
    rw [← List.countP_eq_length_filter]
    refine List.countP_mono_left fun q hq hsuffix => ?_
    have hlen := hw.length_le
    rw [length_of_mem_words hp, ← length_of_mem_words hq] at hlen
    have hsuffix : q <:+ w := by simpa using hsuffix
    simpa using hsuffix.eq_of_length (Nat.le_antisymm hsuffix.length_le hlen)
  simp only [manyPatterns, List.filter_append, List.length_append]
  omega

/-- The states of the words, and those of their first characters. -/
theorem states_manyPatterns : (stateWords manyPatterns).card ≤ ahoMaxStates - 2 := by
  have hsub : stateWords manyPatterns ⊆
      words.toFinset ∪ (Finset.range 64).image fun a => [UInt8.ofNat a] := by
    intro w hw
    obtain ⟨hne, hnil | ⟨p, hp, hpre⟩⟩ := mem_stateWords.mp hw
    · exact absurd hnil hne
    · have hp := mem_manyPatterns hp
      obtain ⟨n, hn, rfl⟩ := List.mem_map.mp hp
      rw [List.mem_range] at hn
      rcases List.prefix_cons_iff.mp hpre with hnil | ⟨v, rfl, hv⟩
      · exact absurd hnil hne
      · rcases List.prefix_cons_iff.mp hv with rfl | ⟨u, rfl, hu⟩
        · exact Finset.mem_union_right _ (Finset.mem_image.mpr
            ⟨n / 256, Finset.mem_range.mpr (by omega), rfl⟩)
        · rw [List.prefix_nil.mp hu]
          exact Finset.mem_union_left _ (List.mem_toFinset.mpr hp)
  refine (Finset.card_le_card hsub).trans ((Finset.card_union_le _ _).trans ?_)
  have hwords : words.toFinset.card ≤ 64 * 256 := by
    simpa [words] using List.toFinset_card_le words
  have himage : ((Finset.range 64).image fun a => [UInt8.ofNat a]).card ≤ 64 := by
    simpa using Finset.card_image_le (s := Finset.range 64) (f := fun a => [UInt8.ofNat a])
  simp only [ahoMaxStates]
  omega

/-- These patterns keep the limits that the code asserts. -/
theorem fitsLimits_manyPatterns : FitsLimits manyPatterns where
  nonempty p hp hnil := by
    have hlen := length_of_mem_words (mem_manyPatterns hp)
    rw [hnil] at hlen
    cases hlen
  length p hp := by
    rw [length_of_mem_words (mem_manyPatterns hp)]
    decide
  states := states_manyPatterns
  outputs p hp w hw :=
    (outputs_manyPatterns (mem_manyPatterns hp) ((List.mem_inits _ _).mp hw)).trans_lt (by decide)

/-- The index of the last copy of the first word does not fit into `out_arr`. -/
theorem not_aho_correct_index :
    FitsLimits manyPatterns ∧ ∃ dfa, ahoBuild ahoMaxLength (fun _ _ => 0) manyPatterns = .ok dfa ∧
      ¬ ∀ i, i ∈ dfa.outputs (dfa.run [0, 0]) ↔ ∃ p, manyPatterns[i]? = some p ∧ p <:+ [0, 0] := by
  obtain ⟨dfa, label, hbuild, hA, hfinal, hdone⟩ :=
    ahoBuild_spec manyPatterns fitsLimits_manyPatterns (fun _ _ => 0) (Nat.le_refl ahoMaxLength)
  refine ⟨fitsLimits_manyPatterns, dfa, hbuild, fun hmem => ?_⟩
  have hlen : words.length = 64 * 256 := by simp only [words, List.length_map, List.length_range]
  have hfour : (words ++ words ++ words ++ words).length = 2 ^ 16 := by
    rw [List.length_append, List.length_append, List.length_append, hlen]
    omega
  have hpattern : manyPatterns[2 ^ 16]? = some [0, 0] := by
    rw [manyPatterns, List.getElem?_append_right hfour.le, hfour, Nat.sub_self, words,
      List.getElem?_map, List.getElem?_range (by decide)]
    rfl
  have houtput := (hmem (2 ^ 16)).mpr ⟨[0, 0], hpattern, List.suffix_rfl⟩
  rw [(hdone _ (run_spec hA hfinal hdone [0, 0]).1).copied] at houtput
  obtain ⟨i, -, hi⟩ := List.mem_map.mp houtput
  rw [toU16] at hi
  omega

end Netstar.Proofs.AhoCorasick
