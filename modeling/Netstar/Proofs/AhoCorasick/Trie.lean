import Mathlib.Data.Finset.Card
import Mathlib.Data.Finset.Insert
import Mathlib.Data.Finset.Dedup
import Mathlib.Order.Interval.Finset.Nat
import Netstar.Lib.LongestSuffix
import Netstar.Lib.Result
import Netstar.Spec.AhoCorasick.Aho

/-!
# `Netstar.Proofs.AhoCorasick.Trie`: the goto trie

Each state of the table stands for one word, its label, and the words are the prefixes of the
patterns added so far. `Trie` states this. `addPatterns_spec` proves that `aho_add_pattern` keeps
it, that no assertion fails within the limits, and that the output queue of a state holds the
indices of the patterns that are its label, in order.
-/

set_option autoImplicit false

namespace Netstar.Proofs.AhoCorasick

open Netstar.Lib
open Netstar.Spec.AhoCorasick

/-- The prefixes of the patterns. -/
def prefixesOf (patterns : List (List UInt8)) : Set (List UInt8) :=
  { w | w = [] ∨ ∃ p ∈ patterns, w <+: p }

/-- The prefixes of the patterns that need a state of their own. -/
def stateWords (patterns : List (List UInt8)) : Finset (List UInt8) :=
  (patterns.flatMap List.inits).toFinset.erase []

/-- The limits that the code asserts: the length of each pattern, the number of states, and the number
of outputs of a state. -/
structure FitsLimits (patterns : List (List UInt8)) : Prop where
  nonempty : ∀ p ∈ patterns, p ≠ []
  length : ∀ p ∈ patterns, p.length ≤ ahoMaxLength
  states : (stateWords patterns).card ≤ ahoMaxStates - 2
  outputs : ∀ p ∈ patterns, ∀ w ∈ p.inits, (patterns.filter (· <:+ w)).length < ahoMaxOutputs

/-- The prefixes of the patterns are closed under prefixes. -/
theorem prefixClosed_prefixesOf (patterns : List (List UInt8)) :
    PrefixClosed (prefixesOf patterns) where
  nil_mem := .inl rfl
  of_append v u h := by
    rcases h with hnil | ⟨p, hp, hpre⟩
    · exact .inl (List.append_eq_nil_iff.mp hnil).1
    · exact .inr ⟨p, hp, (List.prefix_append v u).trans hpre⟩

/-- A state other than the root stands for a nonempty prefix of a pattern. -/
theorem mem_stateWords {patterns : List (List UInt8)} {w : List UInt8} :
    w ∈ stateWords patterns ↔ w ≠ [] ∧ w ∈ prefixesOf patterns := by
  simp only [stateWords, Finset.mem_erase, List.mem_toFinset, List.mem_flatMap, List.mem_inits,
    prefixesOf, Set.mem_ofPred_eq]
  grind

/-! ### Labels -/

/-- The labels of the states `0, ..., n` are the words of `W`, each once. -/
structure Nodes (W : Set (List UInt8)) (label : Nat → List UInt8) (n : Nat) : Prop where
  zero : label 0 = []
  inj : ∀ s ≤ n, ∀ t ≤ n, label s = label t → s = t
  mem_iff : ∀ w, w ∈ W ↔ ∃ s ≤ n, label s = w

variable {W : Set (List UInt8)} {label : Nat → List UInt8} {n : Nat}

/-- The word of a state is one of the words of the trie. -/
theorem Nodes.mem (h : Nodes W label n) {s : Nat} (hs : s ≤ n) : label s ∈ W :=
  (h.mem_iff _).mpr ⟨s, hs, rfl⟩

/-- Only the root has the empty word. -/
theorem Nodes.label_eq_nil (h : Nodes W label n) {s : Nat} (hs : s ≤ n) :
    label s = [] ↔ s = 0 := by
  constructor
  · intro hnil
    exact h.inj s hs 0 (Nat.zero_le n) (hnil.trans h.zero.symm)
  · rintro rfl
    exact h.zero

/-- There are at most as many states as words that need one. -/
theorem Nodes.le_card (h : Nodes W label n) {S : Finset (List UInt8)}
    (hW : ∀ w ∈ W, w ≠ [] → w ∈ S) : n ≤ S.card := by
  have hcard : (Finset.Icc 1 n).card ≤ S.card := by
    apply Finset.card_le_card_of_injOn label
    · intro s hs
      have hs' := Finset.mem_Icc.mp hs
      refine hW _ (h.mem hs'.2) ?_
      rw [Ne, h.label_eq_nil hs'.2]
      omega
    · intro s hs t ht heq
      exact h.inj s (Finset.mem_Icc.mp hs).2 t (Finset.mem_Icc.mp ht).2 heq
  simpa using hcard

/-- The labels after one more state, whose word is new. -/
theorem Nodes.insert (h : Nodes W label n) {w : List UInt8} (hw : w ∉ W) :
    Nodes (Insert.insert w W) (Function.update label (n + 1) w) (n + 1) := by
  have hold : ∀ s ≤ n, Function.update label (n + 1) w s = label s := by
    intro s hs
    exact Function.update_of_ne (by omega) _ _
  have hfresh : ∀ s ≤ n, label s ≠ w := fun s hs heq => hw (heq ▸ h.mem hs)
  refine ⟨by rw [hold 0 (Nat.zero_le n), h.zero], fun s hs t ht heq => ?_, fun x => ?_⟩
  · rcases Nat.le_or_eq_of_le_succ hs with hs | rfl <;>
      rcases Nat.le_or_eq_of_le_succ ht with ht | rfl
    · rw [hold s hs, hold t ht] at heq
      exact h.inj s hs t ht heq
    · rw [hold s hs, Function.update_self] at heq
      exact absurd heq (hfresh s hs)
    · rw [hold t ht, Function.update_self] at heq
      exact absurd heq.symm (hfresh t ht)
    · rfl
  · rw [Set.mem_insert_iff, h.mem_iff]
    constructor
    · rintro (rfl | ⟨s, hs, rfl⟩)
      · exact ⟨n + 1, le_rfl, Function.update_self ..⟩
      · exact ⟨s, by omega, hold s hs⟩
    · rintro ⟨s, hs, rfl⟩
      rcases Nat.le_or_eq_of_le_succ hs with hs | rfl
      · exact .inr ⟨s, hs, (hold s hs).symm⟩
      · exact .inl (Function.update_self ..)

/-! ### Adding patterns -/

/-- The states hold the goto function of the words. States above `numUsedStates` are unused. -/
structure Trie (W : Set (List UInt8)) (label : Nat → List UInt8) (d : AhoDfa) : Prop where
  nodes : Nodes W label d.numUsedStates
  closed : PrefixClosed W
  goto : ∀ s ≤ d.numUsedStates, ∀ c,
    (d.root s).g c = ahoFail ∧ label s ++ [c] ∉ W ∨
      (d.root s).g c ≤ d.numUsedStates ∧ label ((d.root s).g c) = label s ++ [c]
  unused : ∀ s, d.numUsedStates < s → ∀ c, (d.root s).g c = ahoFail

variable {d : AhoDfa}

/-- `aho_init` makes the trie without patterns. -/
theorem trie_ahoInit (uninit : Nat → Nat → Nat) :
    Trie (prefixesOf []) (fun _ => []) (ahoInit uninit) where
  nodes := by
    refine ⟨rfl, ?_, ?_⟩
    · intro s hs t ht _
      rw [Nat.le_zero.mp hs, Nat.le_zero.mp ht]
    · intro w
      simp [prefixesOf, ahoInit, eq_comm]
  closed := prefixClosed_prefixesOf []
  goto s hs c := .inl ⟨rfl, by simp [prefixesOf]⟩
  unused _ _ _ := rfl

/-- Reading a state inside the table. -/
theorem get_eq_ok {s : Nat} (h : s < ahoMaxStates) : d.get s = .ok (d.root s) := if_pos h

/-- Writing a state inside the table. -/
theorem modify_eq_ok {s : Nat} (u : AhoState → AhoState) (h : s < ahoMaxStates) :
    d.modify s u = .ok { d with root := Function.update d.root s (u (d.root s)) } := if_pos h

/-- An assertion that holds. -/
theorem check_eq_ok {b : Bool} (h : b = true) : check b = .ok () := if_pos h

/-- The first loop stops at the longest prefix that has a state. -/
theorem walk_spec (h : Trie W label d) (hn : d.numUsedStates < ahoMaxStates) :
    ∀ (content : List UInt8) (s : Nat), s ≤ d.numUsedStates →
      ∃ t rest, walk d s content = .ok (t, rest) ∧ t ≤ d.numUsedStates ∧
        label t ++ rest = label s ++ content ∧
        ∀ c rest', rest = c :: rest' → label t ++ [c] ∉ W := by
  intro content
  induction content with
  | nil =>
    intro s hs
    exact ⟨s, [], rfl, hs, rfl, by simp⟩
  | cons c content ih =>
    intro s hs
    rw [walk, get_eq_ok (by omega), ok_bind]
    rcases h.goto s hs c with ⟨hfail, hnew⟩ | ⟨hle, hlabel⟩
    · refine ⟨s, c :: content, by rw [if_pos hfail]; rfl, hs, rfl, ?_⟩
      rintro c' rest' ⟨⟩
      exact hnew
    · obtain ⟨t, rest, hwalk, ht, heq, hnew⟩ := ih _ hle
      refine ⟨t, rest, ?_, ht, ?_, hnew⟩
      · rw [if_neg (by simp only [ahoFail, ahoMaxStates] at *; omega), hwalk]
      · rw [heq, hlabel, List.append_assoc, List.singleton_append]

/-- The table after a new state for the word `label s ++ [c]`. -/
def grow (d : AhoDfa) (s : Nat) (c : UInt8) : AhoDfa where
  numUsedStates := d.numUsedStates + 1
  root := Function.update d.root s
    { d.root s with g := Function.update (d.root s).g c (d.numUsedStates + 1) }

/-- A new state takes the next number. -/
@[simp] theorem numUsedStates_grow (s : Nat) (c : UInt8) :
    (grow d s c).numUsedStates = d.numUsedStates + 1 := rfl

/-- A new edge changes only the state it starts from. -/
theorem root_grow_of_ne {s t : Nat} (h : t ≠ s) (c : UInt8) :
    (grow d s c).root t = d.root t :=
  Function.update_of_ne h _ _

/-- The new edge, and the old ones. -/
theorem g_grow_self (s : Nat) (c x : UInt8) :
    ((grow d s c).root s).g x = if x = c then d.numUsedStates + 1 else (d.root s).g x := by
  simp [grow, Function.update_apply]

/-- A new state has no outputs of its own yet. -/
theorem output_grow (s : Nat) (c : UInt8) (t : Nat) :
    ((grow d s c).root t).output = (d.root t).output := by
  by_cases ht : t = s
  · subst ht
    simp [grow]
  · rw [root_grow_of_ne ht]

/-- An edge to a new state adds one word to the trie. -/
theorem trie_grow (h : Trie W label d) {s : Nat} (hs : s ≤ d.numUsedStates) {c : UInt8}
    (hnew : label s ++ [c] ∉ W) :
    Trie (insert (label s ++ [c]) W) (Function.update label (d.numUsedStates + 1) (label s ++ [c]))
      (grow d s c) := by
  have hold : ∀ t ≤ d.numUsedStates,
      Function.update label (d.numUsedStates + 1) (label s ++ [c]) t = label t := by
    intro t ht
    exact Function.update_of_ne (by omega) _ _
  refine ⟨h.nodes.insert hnew, ⟨.inr h.closed.nil_mem, ?_⟩, ?_, ?_⟩
  · intro v u hvu
    rcases hvu with heq | hmem
    · -- A proper prefix of the new word is a prefix of the label of `s`.
      rcases List.eq_nil_or_concat' u with rfl | ⟨u, x, rfl⟩
      · exact .inl (by simpa using heq)
      · rw [← List.append_assoc] at heq
        have hlabel : v ++ u = label s := List.append_inj_left' heq rfl
        exact .inr (h.closed.of_append v u (hlabel ▸ h.nodes.mem hs))
    · exact .inr (h.closed.of_append v u hmem)
  · intro t ht x
    rcases Nat.le_or_eq_of_le_succ ht with ht | rfl
    · rw [hold t ht, Set.mem_insert_iff]
      by_cases hts : t = s
      · subst hts
        by_cases hx : x = c
        · subst hx
          refine .inr ?_
          rw [g_grow_self, if_pos rfl]
          exact ⟨le_rfl, Function.update_self ..⟩
        · rw [g_grow_self, if_neg hx]
          rcases h.goto t hs x with ⟨hfail, hnot⟩ | ⟨hle, hlabel⟩
          · exact .inl ⟨hfail, by simp [hx, hnot]⟩
          · exact .inr ⟨Nat.le_succ_of_le hle, by rw [hold _ hle, hlabel]⟩
      · rw [root_grow_of_ne hts]
        rcases h.goto t ht x with ⟨hfail, hnot⟩ | ⟨hle, hlabel⟩
        · refine .inl ⟨hfail, not_or.mpr ⟨fun heq => hts ?_, hnot⟩⟩
          exact h.nodes.inj t ht s hs (List.append_inj_left' heq rfl)
        · exact .inr ⟨Nat.le_succ_of_le hle, by rw [hold _ hle, hlabel]⟩
    · have hts : d.numUsedStates + 1 ≠ s := by omega
      rw [numUsedStates_grow, root_grow_of_ne hts, Function.update_self, Set.mem_insert_iff]
      refine .inl ⟨h.unused _ (Nat.lt_succ_self _) x, not_or.mpr ⟨by simp, fun hmem => ?_⟩⟩
      exact hnew (h.closed.of_append _ _ hmem)
  · intro t ht x
    have hlt : d.numUsedStates + 1 < t := ht
    rw [root_grow_of_ne (by omega)]
    exact h.unused t (by omega) x

/-- The states and words after the second loop has added the rest of a pattern. -/
structure Extended (W : Set (List UInt8)) (label : Nat → List UInt8) (d : AhoDfa) (s : Nat)
    (rest : List UInt8) (W' : Set (List UInt8)) (label' : Nat → List UInt8) (d' : AhoDfa)
    (t : Nat) : Prop where
  trie : Trie W' label' d'
  le : t ≤ d'.numUsedStates
  label_eq : label' t = label s ++ rest
  mono : d.numUsedStates ≤ d'.numUsedStates
  old : ∀ r ≤ d.numUsedStates, label' r = label r
  new : ∀ r, d.numUsedStates < r → r ≤ d'.numUsedStates → label' r ∉ W
  words : ∀ w, w ∈ W' ↔ w ∈ W ∨ ∃ u, u <+: rest ∧ w = label s ++ u
  output : ∀ r, (d'.root r).output = (d.root r).output

/-- `aho_add_pattern` adds states for the rest of a pattern. The induction is on that rest. -/
theorem extend_spec {S : Finset (List UInt8)} (hS : S.card ≤ ahoMaxStates - 2) :
    ∀ (rest : List UInt8) (W : Set (List UInt8)) (label : Nat → List UInt8) (d : AhoDfa) (s : Nat),
      Trie W label d → s ≤ d.numUsedStates →
      (∀ c rest', rest = c :: rest' → label s ++ [c] ∉ W) →
      (∀ w ∈ W, w ≠ [] → w ∈ S) → (∀ u, u <+: rest → label s ++ u ≠ [] → label s ++ u ∈ S) →
      ∃ W' label' d' t, extend d s rest = .ok (d', t) ∧ Extended W label d s rest W' label' d' t := by
  intro rest
  -- Each step adds one node, for the word of the node before and the next character.
  induction rest with
  | nil =>
    intro W label d s h hs _ _ _
    refine ⟨W, label, d, s, rfl, h, hs, by simp, le_rfl, fun _ _ => rfl, by omega, ?_, fun _ => rfl⟩
    intro w
    constructor
    · exact .inl
    · rintro (hw | ⟨u, hu, rfl⟩)
      · exact hw
      · rw [List.prefix_nil.mp hu, List.append_nil]
        exact h.nodes.mem hs
  | cons c rest ih =>
    intro W label d s h hs hnew hW hrest
    have hnot : label s ++ [c] ∉ W := hnew c rest rfl
    have hgrow := trie_grow h hs hnot
    have hW' : ∀ w ∈ insert (label s ++ [c]) W, w ≠ [] → w ∈ S := by
      rintro w (rfl | hw) hne
      · exact hrest [c] (by simp) hne
      · exact hW w hw hne
    -- The words of the nodes are different and all in `S`, which bounds the number of nodes.
    have hcard : d.numUsedStates + 1 ≤ S.card := hgrow.nodes.le_card hW'
    have hlabel : Function.update label (d.numUsedStates + 1) (label s ++ [c])
        (d.numUsedStates + 1) = label s ++ [c] := Function.update_self ..
    obtain ⟨W', label', d', t, hext, hres⟩ := ih _ _ _ (d.numUsedStates + 1) hgrow le_rfl
      (by
        intro c' rest' _
        rw [hlabel, Set.mem_insert_iff]
        -- The words of a trie are closed under prefixes, so nothing below a new word is there yet.
        refine not_or.mpr ⟨by simp, fun hmem => hnot ?_⟩
        exact h.closed.of_append _ _ hmem)
      hW'
      (by
        intro u hu
        rw [hlabel, List.append_assoc, List.singleton_append]
        exact hrest (c :: u) (List.prefix_cons_inj c |>.mpr hu))
    refine ⟨W', label', d', t, ?_, hres.trie, hres.le, ?_, ?_, ?_, ?_, ?_, ?_⟩
    · have hu16 : toU16 (d.numUsedStates + 1) = d.numUsedStates + 1 := by
        apply Nat.mod_eq_of_lt
        simp only [ahoMaxStates] at hS
        omega
      rw [extend, check_eq_ok (by simpa using hcard.trans hS), ok_bind,
        modify_eq_ok _ (by simp only [ahoMaxStates] at *; omega), ok_bind, hu16]
      exact hext
    · rw [hres.label_eq, hlabel, List.append_assoc, List.singleton_append]
    · exact (Nat.le_succ _).trans hres.mono
    · intro r hr
      rw [hres.old r (Nat.le_succ_of_le hr), Function.update_of_ne (by omega)]
    · intro r hr hr'
      by_cases hr1 : r = d.numUsedStates + 1
      · subst hr1
        rw [hres.old (d.numUsedStates + 1) le_rfl, hlabel]
        exact hnot
      · have := hres.new r (show d.numUsedStates + 1 < r by omega) hr'
        exact fun hmem => this (.inr hmem)
    · intro w
      rw [hres.words, Set.mem_insert_iff, hlabel]
      constructor
      · rintro ((rfl | hw) | ⟨u, hu, rfl⟩)
        · exact .inr ⟨[c], by simp, rfl⟩
        · exact .inl hw
        · exact .inr ⟨c :: u, List.prefix_cons_inj c |>.mpr hu, by simp⟩
      · rintro (hw | ⟨u, hu, rfl⟩)
        · exact .inl (.inr hw)
        · cases u with
          | nil =>
            rw [List.append_nil]
            exact .inl (.inr (h.nodes.mem hs))
          | cons x u =>
            obtain ⟨rfl, hpre⟩ := List.cons_prefix_cons.mp hu
            exact .inr ⟨u, hpre, by simp⟩
    · intro r
      rw [hres.output, output_grow]

/-! ### The outputs of a state before the failure function -/

/-- The indices of the patterns that satisfy `P`, in order. -/
def indicesOf (patterns : List (List UInt8)) (P : List UInt8 → Prop) [DecidablePred P] : List Nat :=
  (List.range patterns.length).filter fun i => patterns[i]?.any (P ·)

/-- An index in the list belongs to a pattern with the property. -/
theorem mem_indicesOf {patterns : List (List UInt8)} {P : List UInt8 → Prop} [DecidablePred P]
    {i : Nat} : i ∈ indicesOf patterns P ↔ ∃ p, patterns[i]? = some p ∧ P p := by
  simp only [indicesOf, List.mem_filter, List.mem_range, Option.any_eq_true, decide_eq_true_eq]
  constructor
  · exact fun h => h.2
  · rintro ⟨p, hp, hP⟩
    exact ⟨(List.getElem?_eq_some_iff.mp hp).1, p, hp, hP⟩

/-- No index is listed twice. -/
theorem nodup_indicesOf (patterns : List (List UInt8)) (P : List UInt8 → Prop) [DecidablePred P] :
    (indicesOf patterns P).Nodup :=
  List.nodup_range.filter _

/-- A new pattern has the next index. -/
theorem indicesOf_append (patterns : List (List UInt8)) (p : List UInt8) (P : List UInt8 → Prop)
    [DecidablePred P] :
    indicesOf (patterns ++ [p]) P =
      indicesOf patterns P ++ if P p then [patterns.length] else [] := by
  have hold : ∀ i ∈ List.range patterns.length,
      ((patterns ++ [p])[i]?.any (P ·)) = (patterns[i]?.any (P ·)) := by
    intro i hi
    rw [List.getElem?_append_left (List.mem_range.mp hi)]
  simp only [indicesOf, List.length_append, List.length_singleton, List.range_succ,
    List.filter_append, List.filter_congr hold, List.filter_singleton]
  by_cases hP : P p <;> simp [hP]

/-- The output queue of each state holds the indices of the patterns that are its label. -/
def OwnOutputs (patterns : List (List UInt8)) (label : Nat → List UInt8) (d : AhoDfa) : Prop :=
  (∀ s ≤ d.numUsedStates, (d.root s).output.nodes = indicesOf patterns (· = label s)) ∧
    ∀ s, d.numUsedStates < s → (d.root s).output.nodes = []

/-- A word that no pattern begins with is no pattern. -/
theorem indicesOf_eq_nil {patterns : List (List UInt8)} {w : List UInt8}
    (h : w ∉ prefixesOf patterns) : indicesOf patterns (· = w) = [] := by
  rw [List.eq_nil_iff_forall_not_mem]
  intro i hi
  obtain ⟨p, hp, rfl⟩ := mem_indicesOf.mp hi
  exact h (.inr ⟨p, List.mem_of_getElem? hp, List.prefix_rfl⟩)

/-- A new pattern adds its prefixes. -/
theorem prefixesOf_append (patterns : List (List UInt8)) (p w : List UInt8) :
    w ∈ prefixesOf (patterns ++ [p]) ↔ w ∈ prefixesOf patterns ∨ w <+: p := by
  simp only [prefixesOf, Set.mem_ofPred_eq, List.mem_append, List.mem_singleton]
  constructor
  · rintro (rfl | ⟨q, hq | rfl, hw⟩)
    · exact .inl (.inl rfl)
    · exact .inl (.inr ⟨q, hq, hw⟩)
    · exact .inr hw
  · rintro ((rfl | ⟨q, hq, hw⟩) | hw)
    · exact .inl rfl
    · exact .inr ⟨q, .inl hq, hw⟩
    · exact .inr ⟨p, .inr rfl, hw⟩

/-- The first patterns need no more states than all of them. -/
theorem stateWords_subset {patterns all : List (List UInt8)} (h : patterns <+: all)
    {w : List UInt8} (hw : w ∈ prefixesOf patterns) (hne : w ≠ []) : w ∈ stateWords all := by
  rw [mem_stateWords]
  refine ⟨hne, ?_⟩
  rcases hw with rfl | ⟨p, hp, hpre⟩
  · exact absurd rfl hne
  · exact .inr ⟨p, h.subset hp, hpre⟩

/-- The table after `ds_queue_add(&st_arr[state].output, index)`. -/
def addOutput (d : AhoDfa) (state index : Nat) : AhoDfa where
  numUsedStates := d.numUsedStates
  root := Function.update d.root state
    { d.root state with output := (d.root state).output.add index }

/-- A new output changes no edge. -/
theorem g_addOutput (state index s : Nat) : ((addOutput d state index).root s).g = (d.root s).g := by
  by_cases hs : s = state
  · subst hs
    simp [addOutput]
  · simp [addOutput, Function.update_of_ne hs]

/-- A new output comes last in the list of its state. -/
theorem nodes_addOutput (state index s : Nat) :
    ((addOutput d state index).root s).output.nodes =
      (d.root s).output.nodes ++ if s = state then [index] else [] := by
  by_cases hs : s = state
  · subst hs
    simp [addOutput, DsQueue.add]
  · simp [addOutput, hs]

/-- A new output leaves the trie as it is. -/
theorem trie_addOutput (h : Trie W label d) (state index : Nat) :
    Trie W label (addOutput d state index) := by
  refine ⟨h.nodes, h.closed, fun s hs c => ?_, fun s hs c => ?_⟩
  · rw [g_addOutput]
    exact h.goto s hs c
  · rw [g_addOutput]
    exact h.unused s hs c

/-- When the states of a pattern are there, its index goes to the last of them. -/
theorem ownOutputs_addOutput {patterns : List (List UInt8)} {W' : Set (List UInt8)}
    {label' : Nat → List UInt8} {d' : AhoDfa} {s t : Nat} {rest p : List UInt8}
    (hown : OwnOutputs patterns label d)
    (h : Extended (prefixesOf patterns) label d s rest W' label' d' t) (hp : label' t = p) :
    OwnOutputs (patterns ++ [p]) label' (addOutput d' t patterns.length) := by
  refine ⟨fun r hr => ?_, fun r hr => ?_⟩
  · have hiff : r = t ↔ p = label' r := by
      rw [← hp]
      exact ⟨fun heq => heq ▸ rfl, fun heq => h.trie.nodes.inj r hr t h.le heq.symm⟩
    have hnodes' : (d.root r).output.nodes = indicesOf patterns (· = label' r) := by
      rcases Nat.lt_or_ge d.numUsedStates r with hlt | hle
      · rw [hown.2 r hlt, indicesOf_eq_nil (h.new r hlt hr)]
      · rw [hown.1 r hle, h.old r hle]
    rw [nodes_addOutput, h.output, hnodes', indicesOf_append]
    simp only [hiff]
  · have hlt : d'.numUsedStates < r := hr
    rw [nodes_addOutput, h.output, hown.2 r (lt_of_le_of_lt h.mono hlt), if_neg, List.append_nil]
    exact fun heq => absurd h.le (by omega)

/-- `aho_add_pattern` adds a pattern to the trie and its index to the outputs. -/
theorem ahoAddPattern_spec {all patterns : List (List UInt8)} {p : List UInt8}
    (hall : FitsLimits all) (hpre : patterns ++ [p] <+: all)
    (h : Trie (prefixesOf patterns) label d) (hown : OwnOutputs patterns label d) :
    ∃ label' d', ahoAddPattern d p patterns.length = .ok d' ∧
      Trie (prefixesOf (patterns ++ [p])) label' d' ∧ OwnOutputs (patterns ++ [p]) label' d' := by
  have hp : p ∈ all := hpre.subset (by simp)
  have hsub : ∀ w ∈ prefixesOf (patterns ++ [p]), w ≠ [] → w ∈ stateWords all :=
    fun w hw hne => stateWords_subset hpre hw hne
  have hold : ∀ w ∈ prefixesOf patterns, w ≠ [] → w ∈ stateWords all :=
    fun w hw => hsub w ((prefixesOf_append ..).mpr (.inl hw))
  have hn : d.numUsedStates < ahoMaxStates := by
    have := (h.nodes.le_card hold).trans hall.states
    simp only [ahoMaxStates] at *
    omega
  -- The walk follows the pattern as far as the trie has it, and `rest` is what it lacks.
  obtain ⟨s, rest, hwalk, hs, hlabel, hnew⟩ := walk_spec h hn p 0 (Nat.zero_le _)
  rw [h.nodes.zero, List.nil_append] at hlabel
  obtain ⟨W', label', d', t, hext, hres⟩ := extend_spec hall.states rest _ label d s h hs hnew hold
    (by
      intro u hu hne
      refine hsub _ ((prefixesOf_append ..).mpr (.inr ?_)) hne
      rw [← hlabel]
      exact (List.prefix_append_right_inj _).mpr hu)
  have hW' : W' = prefixesOf (patterns ++ [p]) := by
    ext w
    rw [hres.words, prefixesOf_append, ← hlabel]
    constructor
    · rintro (hw | ⟨u, hu, rfl⟩)
      · exact .inl hw
      · exact .inr ((List.prefix_append_right_inj _).mpr hu)
    · rintro (hw | hw)
      · exact .inl hw
      · -- A prefix of the pattern ends inside the label of `s`, or it goes on into the rest.
        rcases List.prefix_or_prefix_of_prefix hw (List.prefix_append _ _) with ⟨v, hv⟩ | ⟨u, rfl⟩
        · exact .inl (h.closed.of_append w v (hv ▸ h.nodes.mem hs))
        · exact .inr ⟨u, (List.prefix_append_right_inj _).mp hw, rfl⟩
  subst hW'
  have hn' : d'.numUsedStates < ahoMaxStates := by
    have := (hres.trie.nodes.le_card hsub).trans hall.states
    simp only [ahoMaxStates] at *
    omega
  have hp' : label' t = p := hres.label_eq.trans hlabel
  have ht : t ≠ 0 := by
    rw [Ne, ← hres.trie.nodes.label_eq_nil hres.le, hp']
    exact hall.nonempty p hp
  refine ⟨label', _, ?_, trie_addOutput hres.trie t patterns.length, ?_⟩
  · have hlength : check (p.length ≤ ahoMaxLength) = .ok () :=
      check_eq_ok (by simpa using hall.length p hp)
    have hne : check (t ≠ 0) = .ok () := check_eq_ok (by simpa using ht)
    simp only [ahoAddPattern, hlength, ok_bind, hwalk, hext, hne,
      modify_eq_ok _ (lt_of_le_of_lt hres.le hn')]
    rfl
  · exact ownOutputs_addOutput hown hres hp'

/-- Within the limits, `aho_add_pattern` for each pattern builds the trie of the patterns. -/
theorem addPatterns_spec {all : List (List UInt8)} (hall : FitsLimits all) :
    ∀ (rest patterns : List (List UInt8)) (label : Nat → List UInt8) (d : AhoDfa),
      patterns ++ rest = all → Trie (prefixesOf patterns) label d → OwnOutputs patterns label d →
      ∃ label' d', addPatterns d patterns.length rest = .ok d' ∧ Trie (prefixesOf all) label' d' ∧
        OwnOutputs all label' d' := by
  intro rest
  induction rest with
  | nil =>
    intro patterns label d heq h hown
    rw [List.append_nil] at heq
    subst heq
    exact ⟨label, d, rfl, h, hown⟩
  | cons p rest ih =>
    intro patterns label d heq h hown
    have heq' : (patterns ++ [p]) ++ rest = all := by simpa using heq
    obtain ⟨label₁, d₁, hadd, h₁, hown₁⟩ := ahoAddPattern_spec hall ⟨rest, heq'⟩ h hown
    obtain ⟨label', d', hrest, h', hown'⟩ := ih _ label₁ d₁ heq' h₁ hown₁
    refine ⟨label', d', ?_, h', hown'⟩
    rw [addPatterns, hadd, ok_bind, ← hrest]
    simp

end Netstar.Proofs.AhoCorasick
