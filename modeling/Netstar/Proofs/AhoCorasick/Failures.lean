import Netstar.Proofs.AhoCorasick.Trie

/-!
# `Netstar.Proofs.AhoCorasick.Failures`: the failure function

`aho_build_ff` visits the states breadth first. A state is linked when its failure state and its
outputs are final. `Linked` is the invariant of the linked states, and `Frontier` is the invariant of
the queue. When the traversal reaches a state, every state that is not deeper is linked already
(`Frontier.mem_of_length_le`), so the failure chain and the inherited outputs of its children only
read final values.
-/

set_option autoImplicit false

namespace Netstar.Proofs.AhoCorasick

open Netstar.Lib
open Netstar.Spec.AhoCorasick

/-- The states `0, ..., n` stand for the prefixes of the patterns. -/
structure Automaton (patterns : List (List UInt8)) (label : Nat → List UInt8) (n : Nat) : Prop where
  limits : FitsLimits patterns
  nodes : Nodes (prefixesOf patterns) label n

variable {patterns : List (List UInt8)} {label : Nat → List UInt8} {n : Nat} {d : AhoDfa}

/-- The states fit into the table. -/
theorem Automaton.lt_max (hA : Automaton patterns label n) {s : Nat} (hs : s ≤ n) :
    s < ahoMaxStates := by
  have hcard := hA.nodes.le_card fun w hw hne => stateWords_subset List.prefix_rfl hw hne
  have hstates := hA.limits.states
  simp only [ahoMaxStates] at *
  omega

/-- No state has the number that means failure. -/
theorem Automaton.ne_fail (hA : Automaton patterns label n) {s : Nat} (hs : s ≤ n) :
    s ≠ ahoFail := by
  have := hA.lt_max hs
  simp only [ahoMaxStates, ahoFail] at *
  omega

/-- A state survives the cast to `uint16_t`. -/
theorem Automaton.toU16_eq (hA : Automaton patterns label n) {s : Nat} (hs : s ≤ n) :
    toU16 s = s := by
  have := hA.lt_max hs
  apply Nat.mod_eq_of_lt
  simp only [ahoMaxStates] at this
  omega

/-- The word of a state is not longer than the longest pattern. -/
theorem Automaton.length_le (hA : Automaton patterns label n) {s : Nat} (hs : s ≤ n) :
    (label s).length ≤ ahoMaxLength := by
  rcases hA.nodes.mem hs with hnil | ⟨p, hp, hpre⟩
  · simp [hnil]
  · exact hpre.length_le.trans (hA.limits.length p hp)

/-! ### Failure chains -/

/-- A transition is missing, or it goes to the longest suffix that has a state. -/
def Goto (patterns : List (List UInt8)) (label : Nat → List UInt8) (n : Nat) (d : AhoDfa) : Prop :=
  ∀ s ≤ n, ∀ c,
    (d.root s).g c = ahoFail ∧ s ≠ 0 ∧ label s ++ [c] ∉ prefixesOf patterns ∨
      (d.root s).g c ≤ n ∧
        LongestSuffix (prefixesOf patterns) (label s ++ [c]) (label ((d.root s).g c))

/-- The failure state of `s` is the longest proper suffix of its label. -/
def FailOk (patterns : List (List UInt8)) (label : Nat → List UInt8) (n : Nat) (d : AhoDfa)
    (s : Nat) : Prop :=
  (d.root s).f ≤ n ∧ LongestSuffix (prefixesOf patterns) (label s).tail (label (d.root s).f)

/-- The failure chain ends at a state whose transition is the one that the first state should
have. -/
theorem followFailures_spec (hA : Automaton patterns label n) (hgoto : Goto patterns label n d)
    (c : UInt8) :
    ∀ (fuel s : Nat), s ≤ n → (label s).length ≤ fuel →
      (∀ t ≤ n, t ≠ 0 → (label t).length ≤ (label s).length → FailOk patterns label n d t) →
      ∃ t ≤ n, followFailures d c fuel s = .ok t ∧ (d.root t).g c ≤ n ∧
        LongestSuffix (prefixesOf patterns) (label s ++ [c]) (label ((d.root t).g c)) := by
  intro fuel
  induction fuel with
  | zero =>
    intro s hs hlen _
    -- No fuel is left at the root only, and the root has every transition.
    have hs0 : s = 0 := (hA.nodes.label_eq_nil hs).mp (by simpa using hlen)
    rcases hgoto s hs c with ⟨_, hne, _⟩ | ⟨hle, hlong⟩
    · exact absurd hs0 hne
    · refine ⟨s, hs, ?_, hle, hlong⟩
      rw [followFailures, get_eq_ok (hA.lt_max hs), ok_bind, if_pos (hA.ne_fail hle)]
      rfl
  | succ fuel ih =>
    intro s hs hlen hfail
    rcases hgoto s hs c with ⟨hmissing, hne, hnot⟩ | ⟨hle, hlong⟩
    · obtain ⟨hf, hlong⟩ := hfail s hs hne le_rfl
      have hnil : label s ≠ [] := fun hnil => hne ((hA.nodes.label_eq_nil hs).mp hnil)
      -- The chain ends: the failure state of a state other than the root has a shorter label.
      have hshort : (label (d.root s).f).length < (label s).length := by
        have hle := hlong.suffix.length_le
        have hpos := List.length_pos_of_ne_nil hnil
        rw [List.length_tail] at hle
        omega
      obtain ⟨t, ht, hrun, hle, hstep⟩ := ih _ hf (by omega)
        (fun r hr hr0 hr' => hfail r hr hr0 (by omega))
      refine ⟨t, ht, ?_, hle, ?_⟩
      · rw [followFailures, get_eq_ok (hA.lt_max hs), ok_bind, if_neg (not_not.mpr hmissing)]
        exact hrun
      · -- The whole word is no prefix of a pattern, so its longest suffix that is one lies in its
        -- tail.
        apply LongestSuffix.of_tail hnot
        rw [List.tail_append_of_ne_nil hnil]
        exact hlong.snoc (prefixClosed_prefixesOf patterns) hstep
    · refine ⟨s, hs, ?_, hle, hlong⟩
      rw [followFailures, get_eq_ok (hA.lt_max hs), ok_bind, if_pos (hA.ne_fail hle)]
      rfl

/-! ### Outputs -/

/-- The list holds the indices of the patterns that are suffixes of the word, each once. -/
structure Matches (patterns : List (List UInt8)) (w : List UInt8) (l : List Nat) : Prop where
  nodup : l.Nodup
  mem_iff : ∀ i, i ∈ l ↔ ∃ p, patterns[i]? = some p ∧ p <:+ w

/-- No pattern ends in the empty word. -/
theorem matches_nil (hpos : ∀ p ∈ patterns, p ≠ []) : Matches patterns [] [] := by
  refine ⟨List.nodup_nil, fun i => ⟨by simp, ?_⟩⟩
  rintro ⟨p, hp, hsuffix⟩
  exact absurd (List.suffix_nil.mp hsuffix) (hpos p (List.mem_of_getElem? hp))

/-- The outputs of a word are its own patterns and the outputs of its longest proper suffix. -/
theorem Matches.append {w v : List UInt8} {l : List Nat} (hw : w ≠ [])
    (hlong : LongestSuffix (prefixesOf patterns) w.tail v) (hv : Matches patterns v l) :
    Matches patterns w (indicesOf patterns (· = w) ++ l) := by
  have hv' : v.length < w.length := by
    have hle := hlong.suffix.length_le
    have hpos := List.length_pos_of_ne_nil hw
    rw [List.length_tail] at hle
    omega
  refine ⟨?_, fun i => ?_⟩
  · rw [List.nodup_append]
    refine ⟨nodup_indicesOf _ _, hv.nodup, ?_⟩
    rintro i hi _ hj rfl
    obtain ⟨p, hp, rfl⟩ := mem_indicesOf.mp hi
    obtain ⟨q, hq, hsuffix⟩ := (hv.mem_iff i).mp hj
    have hpq : p = q := Option.some_inj.mp (hp.symm.trans hq)
    have hlen := hsuffix.length_le
    rw [← hpq] at hlen
    omega
  · rw [List.mem_append, mem_indicesOf, hv.mem_iff]
    constructor
    · rintro (⟨p, hp, rfl⟩ | ⟨p, hp, hsuffix⟩)
      · exact ⟨p, hp, List.suffix_rfl⟩
      · exact ⟨p, hp, (hsuffix.trans hlong.suffix).trans (List.tail_suffix w)⟩
    · rintro ⟨p, hp, hsuffix⟩
      have hmem : p ∈ prefixesOf patterns :=
        .inr ⟨p, List.mem_of_getElem? hp, List.prefix_rfl⟩
      by_cases hpw : p = w
      · exact .inl ⟨p, hp, hpw⟩
      · exact .inr ⟨p, hp, (hlong.suffix_iff hmem).mp (suffix_tail_of_ne hsuffix hpw)⟩

/-- The indices count the patterns with the property. -/
theorem length_indicesOf (patterns : List (List UInt8)) (P : List UInt8 → Prop) [DecidablePred P] :
    (indicesOf patterns P).length = (patterns.filter (P ·)).length := by
  induction patterns using List.reverseRecOn with
  | nil => rfl
  | append_singleton patterns p ih =>
    rw [indicesOf_append, List.length_append, ih, List.filter_append, List.length_append]
    by_cases hp : P p <;> simp [hp]

/-- The matches count the patterns that end here. -/
theorem Matches.length_eq {w : List UInt8} {l : List Nat} (h : Matches patterns w l) :
    l.length = (patterns.filter (· <:+ w)).length := by
  have hperm : l.Perm (indicesOf patterns (· <:+ w)) := by
    rw [List.perm_ext_iff_of_nodup h.nodup (nodup_indicesOf _ _)]
    intro i
    rw [h.mem_iff, mem_indicesOf]
  rw [hperm.length_eq, length_indicesOf]

/-- A word that has a state has few outputs. -/
theorem Matches.length_lt (hA : Automaton patterns label n) {s : Nat} (hs : s ≤ n) {l : List Nat}
    (h : Matches patterns (label s) l) : l.length < ahoMaxOutputs := by
  rw [h.length_eq]
  rcases hA.nodes.mem hs with hnil | ⟨p, hp, hpre⟩
  · have hfilter : patterns.filter (· <:+ label s) = [] := by
      rw [List.filter_eq_nil_iff]
      intro p hp hsuffix
      rw [hnil] at hsuffix
      exact hA.limits.nonempty p hp (List.suffix_nil.mp (by simpa using hsuffix))
    rw [hfilter]
    decide
  · exact hA.limits.outputs p hp _ ((List.mem_inits _ _).mpr hpre)

/-! ### Linking one state -/

/-- The transitions during `aho_build_ff`: the trie, with the missing transitions of the root looped
back. -/
structure Transitions (patterns : List (List UInt8)) (label : Nat → List UInt8) (n : Nat)
    (d : AhoDfa) : Prop where
  root : ∀ c, (d.root 0).g c = 0 ∧ [c] ∉ prefixesOf patterns ∨
    (d.root 0).g c ≤ n ∧ label ((d.root 0).g c) = [c]
  inner : ∀ s ≤ n, s ≠ 0 → ∀ c,
    (d.root s).g c = ahoFail ∧ label s ++ [c] ∉ prefixesOf patterns ∨
      (d.root s).g c ≤ n ∧ label ((d.root s).g c) = label s ++ [c]

/-- The edges of the finished trie are the goto function of the algorithm. -/
theorem Transitions.goto (hA : Automaton patterns label n) (h : Transitions patterns label n d) :
    Goto patterns label n d := by
  intro s hs c
  by_cases hs0 : s = 0
  · subst hs0
    refine .inr ?_
    rw [hA.nodes.zero, List.nil_append]
    rcases h.root c with ⟨hzero, hnot⟩ | ⟨hle, hlabel⟩
    · rw [hzero, hA.nodes.zero]
      exact ⟨Nat.zero_le n, .singleton (prefixClosed_prefixesOf patterns) hnot⟩
    · rw [← hlabel]
      exact ⟨hle, .self (hA.nodes.mem hle)⟩
  · rcases h.inner s hs hs0 c with ⟨hfail, hnot⟩ | ⟨hle, hlabel⟩
    · exact .inl ⟨hfail, hs0, hnot⟩
    · rw [← hlabel]
      exact .inr ⟨hle, .self (hA.nodes.mem hle)⟩

/-- The failure states and the outputs of the linked states are final. The other states have the
outputs that `aho_add_pattern` gave them. -/
structure Linked (patterns : List (List UInt8)) (label : Nat → List UInt8) (n : Nat) (d : AhoDfa)
    (linked : List Nat) : Prop where
  used : d.numUsedStates = n
  transitions : Transitions patterns label n d
  valid : ∀ s ∈ linked, s ≠ 0 ∧ s ≤ n
  fail : ∀ s ∈ linked, FailOk patterns label n d s
  matched : ∀ s ∈ linked, Matches patterns (label s) (d.root s).output.nodes
  own : ∀ s ≤ n, s ∉ linked → (d.root s).output.nodes = indicesOf patterns (· = label s)

/-- The table with another failure state and other outputs at `child`. -/
structure Links (d : AhoDfa) (child f : Nat) (nodes : List Nat) (d' : AhoDfa) : Prop where
  used : d'.numUsedStates = d.numUsedStates
  g : ∀ s, (d'.root s).g = (d.root s).g
  other : ∀ s, s ≠ child → (d'.root s).f = (d.root s).f ∧ (d'.root s).output = (d.root s).output
  f_child : (d'.root child).f = f
  nodes_child : (d'.root child).output.nodes = nodes

/-- Only the edges matter. -/
theorem Transitions.congr (h : Transitions patterns label n d) {d' : AhoDfa}
    (hg : ∀ s, (d'.root s).g = (d.root s).g) : Transitions patterns label n d' := by
  refine ⟨fun c => ?_, fun s hs hs0 c => ?_⟩
  · rw [hg]
    exact h.root c
  · rw [hg]
    exact h.inner s hs hs0 c

/-- The root has no outputs. -/
theorem Linked.zero_nodes (hA : Automaton patterns label n) {linked : List Nat}
    (h : Linked patterns label n d linked) : (d.root 0).output.nodes = [] := by
  rw [h.own 0 (Nat.zero_le n) fun hmem => (h.valid 0 hmem).1 rfl, hA.nodes.zero,
    List.eq_nil_iff_forall_not_mem]
  intro i hi
  obtain ⟨p, hp, hnil⟩ := mem_indicesOf.mp hi
  exact hA.limits.nonempty p (List.mem_of_getElem? hp) hnil

/-- The outputs of the root and of the linked states. -/
theorem Linked.matches_of (hA : Automaton patterns label n) {linked : List Nat}
    (h : Linked patterns label n d linked) {s : Nat} (hs : s = 0 ∨ s ∈ linked) :
    Matches patterns (label s) (d.root s).output.nodes := by
  rcases hs with rfl | hmem
  · rw [h.zero_nodes hA, hA.nodes.zero]
    exact matches_nil hA.limits.nonempty
  · exact h.matched s hmem

/-- A state gets its failure state and the outputs of that state. -/
theorem Linked.link (hA : Automaton patterns label n) {linked : List Nat}
    (h : Linked patterns label n d linked) {child f : Nat} {d' : AhoDfa} (hchild : child ≤ n)
    (hchild0 : child ≠ 0) (hnew : child ∉ linked) (hf : f ≤ n) (hlinked : f = 0 ∨ f ∈ linked)
    (hlong : LongestSuffix (prefixesOf patterns) (label child).tail (label f))
    (hd' : Links d child f ((d.root child).output.nodes ++ (d.root f).output.nodes) d') :
    Linked patterns label n d' (linked ++ [child]) := by
  have hnil : label child ≠ [] := fun hnil => hchild0 ((hA.nodes.label_eq_nil hchild).mp hnil)
  have hne : ∀ s ∈ linked, s ≠ child := fun s hs heq => hnew (heq ▸ hs)
  refine ⟨hd'.used.trans h.used, h.transitions.congr hd'.g, ?_, ?_, ?_, ?_⟩
  · intro s hs
    rcases List.mem_append.mp hs with hs | hs
    · exact h.valid s hs
    · rw [List.mem_singleton.mp hs]
      exact ⟨hchild0, hchild⟩
  · intro s hs
    rcases List.mem_append.mp hs with hs | hs
    · rw [FailOk, (hd'.other s (hne s hs)).1]
      exact h.fail s hs
    · rw [List.mem_singleton.mp hs, FailOk, hd'.f_child]
      exact ⟨hf, hlong⟩
  · intro s hs
    rcases List.mem_append.mp hs with hs | hs
    · rw [(hd'.other s (hne s hs)).2]
      exact h.matched s hs
    · rw [List.mem_singleton.mp hs, hd'.nodes_child, h.own child hchild hnew]
      exact Matches.append hnil hlong (h.matches_of hA hlinked)
  · intro s hs hnot
    rw [List.mem_append, List.mem_singleton, not_or] at hnot
    rw [(hd'.other s hnot.2).2]
    exact h.own s hs hnot.1

/-- The loop over the output queue of `source` adds its nodes from `j` on to `target`. -/
theorem inheritOutputs_spec {source target : Nat} (hne : source ≠ target)
    (hsource : source < ahoMaxStates) (htarget : target < ahoMaxStates) :
    ∀ (fuel : Nat) (d : AhoDfa) (j : Nat), (d.root source).output.nodes.length ≤ fuel + j →
      ∃ d', inheritOutputs source target fuel d j = .ok d' ∧
        Links d target (d.root target).f
          ((d.root target).output.nodes ++ (d.root source).output.nodes.drop j) d' := by
  intro fuel
  induction fuel with
  | zero =>
    intro d j hfuel
    have hnone : (d.root source).output.nodes[j]? = none := List.getElem?_eq_none (by omega)
    refine ⟨d, ?_, rfl, fun _ => rfl, fun _ _ => ⟨rfl, rfl⟩, rfl, ?_⟩
    · rw [inheritOutputs, get_eq_ok hsource, ok_bind, hnone]
      rfl
    · rw [List.drop_of_length_le (by omega), List.append_nil]
  | succ fuel ih =>
    intro d j hfuel
    cases hj : (d.root source).output.nodes[j]? with
    | none =>
      refine ⟨d, ?_, rfl, fun _ => rfl, fun _ _ => ⟨rfl, rfl⟩, rfl, ?_⟩
      · rw [inheritOutputs, get_eq_ok hsource, ok_bind, hj]
        rfl
      · rw [List.drop_of_length_le (List.getElem?_eq_none_iff.mp hj), List.append_nil]
    | some data =>
      -- Adding to the target leaves the queue of the source, which the loop walks, as it is.
      have hsame : (addOutput d target data).root source = d.root source :=
        Function.update_of_ne hne _ _
      obtain ⟨d', hrun, hd'⟩ := ih (addOutput d target data) (j + 1) (by rw [hsame]; omega)
      refine ⟨d', ?_, hd'.used, ?_, ?_, ?_, ?_⟩
      · rw [inheritOutputs, get_eq_ok hsource, ok_bind, hj]
        simp only [modify_eq_ok _ htarget, ok_bind]
        exact hrun
      · intro s
        rw [hd'.g, g_addOutput]
      · intro s hs
        have hroot : (addOutput d target data).root s = d.root s := Function.update_of_ne hs _ _
        rw [(hd'.other s hs).1, (hd'.other s hs).2, hroot]
        exact ⟨rfl, rfl⟩
      · rw [hd'.f_child]
        simp [addOutput]
      · obtain ⟨hlt, hget⟩ := List.getElem?_eq_some_iff.mp hj
        rw [hd'.nodes_child, hsame, nodes_addOutput, if_pos rfl, List.append_assoc,
          List.drop_eq_getElem_cons hlt, hget, List.singleton_append]

/-- The table after `st_arr[state].F = f`. -/
def setF (d : AhoDfa) (state f : Nat) : AhoDfa where
  numUsedStates := d.numUsedStates
  root := Function.update d.root state { d.root state with f := f }

/-- The write of a failure link, inside the table. -/
theorem modify_setF {state f : Nat} (h : state < ahoMaxStates) :
    d.modify state (fun st => { st with f := f }) = .ok (setF d state f) := if_pos h

/-- The first part of a link: the failure state is set, the outputs stay. -/
theorem links_setF (d : AhoDfa) (state f : Nat) :
    Links d state f (d.root state).output.nodes (setF d state f) := by
  have hother : ∀ s, s ≠ state → (setF d state f).root s = d.root s := fun s hs =>
    Function.update_of_ne hs _ _
  refine ⟨rfl, fun s => ?_, fun s hs => ?_, by simp [setF], by simp [setF]⟩
  · by_cases hs : s = state
    · subst hs
      simp [setF]
    · rw [hother s hs]
  · rw [hother s hs]
    exact ⟨rfl, rfl⟩

/-- A child is linked step by step. -/
theorem Links.trans {child f f' : Nat} {nodes nodes' : List Nat} {d₁ d₂ : AhoDfa}
    (h : Links d child f nodes d₁) (h' : Links d₁ child f' nodes' d₂) :
    Links d child f' nodes' d₂ where
  used := h'.used.trans h.used
  g s := (h'.g s).trans (h.g s)
  other s hs := ⟨(h'.other s hs).1.trans (h.other s hs).1, (h'.other s hs).2.trans (h.other s hs).2⟩
  f_child := h'.f_child
  nodes_child := h'.nodes_child

/-- A state gets the failure state `source` and its outputs. -/
theorem inheritOutputs_setF {source target fuel : Nat} (hne : source ≠ target)
    (hsource : source < ahoMaxStates) (htarget : target < ahoMaxStates)
    (hfuel : (d.root source).output.nodes.length ≤ fuel) :
    ∃ d', inheritOutputs source target fuel (setF d target source) 0 = .ok d' ∧
      Links d target source ((d.root target).output.nodes ++ (d.root source).output.nodes) d' := by
  have hset := links_setF d target source
  have hsame : ((setF d target source).root source).output = (d.root source).output :=
    (hset.other source hne).2
  obtain ⟨d', hrun, hd'⟩ := inheritOutputs_spec hne hsource htarget fuel (setF d target source) 0
    (by rw [hsame]; exact hfuel)
  rw [hset.f_child, hset.nodes_child, hsame, List.drop_zero] at hd'
  exact ⟨d', hrun, hset.trans hd'⟩

/-- Every state that is not deeper than `cur` is the root or linked. -/
def Shallow (label : Nat → List UInt8) (n : Nat) (linked : List Nat) (cur : Nat) : Prop :=
  ∀ t ≤ n, t ≠ 0 → (label t).length ≤ (label cur).length → t ∈ linked

/-- The body of the loop over the children of `cur`, at a child. -/
theorem linkChildren_cons (hA : Automaton patterns label n) {fuel cur : Nat}
    (hfuel : ahoMaxLength ≤ fuel) {linked : List Nat} (h : Linked patterns label n d linked)
    (hcur : cur ∈ linked) (hshallow : Shallow label n linked cur) (queue : DsQueue) {c : UInt8}
    (cs : List UInt8) (hchild : (d.root cur).g c ≠ ahoFail) (hnew : (d.root cur).g c ∉ linked) :
    ∃ d', linkChildren fuel cur d queue (c :: cs) =
        linkChildren fuel cur d' (queue.add ((d.root cur).g c)) cs ∧
      Linked patterns label n d' (linked ++ [(d.root cur).g c]) ∧
      ∀ s, (d'.root s).g = (d.root s).g := by
  obtain ⟨hcur0, hcurn⟩ := h.valid cur hcur
  obtain ⟨hle, hlabel⟩ := (h.transitions.inner cur hcurn hcur0 c).resolve_left
    fun hfail => hchild hfail.1
  have hnil : label cur ≠ [] := fun hnil => hcur0 ((hA.nodes.label_eq_nil hcurn).mp hnil)
  have htail : (label ((d.root cur).g c)).tail = (label cur).tail ++ [c] := by
    rw [hlabel, List.tail_append_of_ne_nil hnil]
  obtain ⟨hf, hlong⟩ := h.fail cur hcur
  have hshort : (label (d.root cur).f).length ≤ (label cur).length :=
    (hlong.suffix.trans (List.tail_suffix _)).length_le
  -- The failure chain finds the failure state of the child.
  obtain ⟨best, hbest, hrun, hfail, hstep⟩ := followFailures_spec hA (h.transitions.goto hA) c fuel _
    hf ((hA.length_le hf).trans hfuel)
    fun t ht ht0 hlen => h.fail t (hshallow t ht ht0 (hlen.trans hshort))
  have hlong' := hlong.snoc (prefixClosed_prefixesOf patterns) hstep
  rw [← htail] at hlong'
  have hlen : (label ((d.root best).g c)).length ≤ (label cur).length := by
    have hle := hlong'.suffix.length_le
    have hpos := List.length_pos_of_ne_nil hnil
    rw [htail, List.length_append, List.length_tail, List.length_singleton] at hle
    omega
  have hne : (d.root best).g c ≠ (d.root cur).g c := by
    intro heq
    rw [heq, hlabel, List.length_append, List.length_singleton] at hlen
    omega
  have hlinked : (d.root best).g c = 0 ∨ (d.root best).g c ∈ linked := by
    by_cases hzero : (d.root best).g c = 0
    · exact .inl hzero
    · exact .inr (hshallow _ hfail hzero hlen)
  -- The child gets it, and the outputs.
  have hcount : (d.root ((d.root best).g c)).output.nodes.length ≤ fuel := by
    have hlimit := (h.matches_of hA hlinked).length_lt hA hfail
    simp only [ahoMaxOutputs, ahoMaxLength] at *
    omega
  obtain ⟨d', hinherit, hd'⟩ :=
    inheritOutputs_setF hne (hA.lt_max hfail) (hA.lt_max hle) hcount
  refine ⟨d', ?_, h.link hA hle ?_ hnew hfail hlinked hlong' hd', hd'.g⟩
  · simp only [linkChildren, get_eq_ok (hA.lt_max hcurn), ok_bind, if_pos hchild, hrun,
      get_eq_ok (hA.lt_max hbest), modify_setF (hA.lt_max hle), hinherit]
  · rw [Ne, ← hA.nodes.label_eq_nil hle, hlabel]
    simp

/-- The children of `cur` for the given characters. -/
def childrenOf (d : AhoDfa) (cur : Nat) (cs : List UInt8) : List Nat :=
  (cs.map (d.root cur).g).filter (· ≠ ahoFail)

/-- Only the edges decide the children. -/
theorem childrenOf_congr {d' : AhoDfa} (hg : ∀ s, (d'.root s).g = (d.root s).g) (cur : Nat)
    (cs : List UInt8) : childrenOf d' cur cs = childrenOf d cur cs := by
  rw [childrenOf, childrenOf, hg]

/-- The loop over the children of `cur` links the children and puts them into the queue. -/
theorem linkChildren_spec (hA : Automaton patterns label n) {fuel cur : Nat}
    (hfuel : ahoMaxLength ≤ fuel) :
    ∀ (cs : List UInt8) (d : AhoDfa) (queue : DsQueue) (linked : List Nat), cs.Nodup →
      Linked patterns label n d linked → cur ∈ linked → Shallow label n linked cur →
      (∀ c ∈ cs, (d.root cur).g c ≠ ahoFail → (d.root cur).g c ∉ linked) →
      ∃ d' queue', linkChildren fuel cur d queue cs = .ok (d', queue') ∧
        queue'.nodes = queue.nodes ++ childrenOf d cur cs ∧
        Linked patterns label n d' (linked ++ childrenOf d cur cs) ∧
        ∀ s, (d'.root s).g = (d.root s).g := by
  intro cs
  induction cs with
  | nil =>
    intro d queue linked _ h _ _ _
    refine ⟨d, queue, rfl, ?_, ?_, fun _ => rfl⟩
    · simp [childrenOf]
    · simpa [childrenOf] using h
  | cons c cs ih =>
    intro d queue linked hnodup h hcur hshallow hnew
    obtain ⟨hcur0, hcurn⟩ := h.valid cur hcur
    obtain ⟨hc, hnodup'⟩ := List.nodup_cons.mp hnodup
    by_cases hchild : (d.root cur).g c = ahoFail
    · obtain ⟨d', queue', hrun, hq, h', hg⟩ := ih d queue linked hnodup' h hcur hshallow
        fun x hx => hnew x (List.mem_cons_of_mem c hx)
      refine ⟨d', queue', ?_, ?_, ?_, hg⟩
      · simpa only [linkChildren, get_eq_ok (hA.lt_max hcurn), ok_bind, hchild, ne_eq,
          not_true_eq_false, if_false] using hrun
      · simpa [childrenOf, hchild] using hq
      · simpa [childrenOf, hchild] using h'
    · obtain ⟨d₁, hstep, h₁, hg₁⟩ := linkChildren_cons hA hfuel h hcur hshallow queue cs hchild
        (hnew c (by simp) hchild)
      obtain ⟨d', queue', hrun, hq, h', hg⟩ := ih d₁ (queue.add ((d.root cur).g c))
        (linked ++ [(d.root cur).g c]) hnodup' h₁ (List.mem_append_left _ hcur)
        (fun t ht ht0 hlen => List.mem_append_left _ (hshallow t ht ht0 hlen)) <| by
          intro x hx hx'
          rw [hg₁] at hx' ⊢
          rw [List.mem_append, List.mem_singleton, not_or]
          refine ⟨hnew x (List.mem_cons_of_mem c hx) hx', fun heq => hc ?_⟩
          -- Two characters that lead to one child are equal.
          have hlabel := ((h.transitions.inner cur hcurn hcur0 c).resolve_left
            fun hfail => hchild hfail.1).2
          have hlabel' := ((h.transitions.inner cur hcurn hcur0 x).resolve_left
            fun hfail => hx' hfail.1).2
          rw [heq, hlabel] at hlabel'
          have hcx : c = x := by simpa using hlabel'
          exact hcx ▸ hx
      have hchildren : childrenOf d cur (c :: cs) = (d.root cur).g c :: childrenOf d cur cs := by
        simp [childrenOf, hchild]
      rw [childrenOf_congr hg₁] at hq h'
      refine ⟨d', queue', hstep.trans hrun, ?_, ?_, fun s => (hg s).trans (hg₁ s)⟩
      · rw [hq, hchildren]
        simp [DsQueue.add]
      · rw [hchildren]
        simpa using h'

/-- The children of the root for the given characters. -/
def rootChildren (d : AhoDfa) (cs : List UInt8) : List Nat :=
  (cs.map (d.root 0).g).filter (· ≠ 0)

/-- The loop over the children of the root links them and puts them into the queue. -/
theorem initChildren_spec (hA : Automaton patterns label n) :
    ∀ (cs : List UInt8) (d : AhoDfa) (queue : DsQueue) (linked : List Nat), cs.Nodup →
      Linked patterns label n d linked →
      (∀ c ∈ cs, (d.root 0).g c ≠ 0 → (d.root 0).g c ∉ linked) →
      ∃ d' queue', initChildren d queue cs = .ok (d', queue') ∧
        queue'.nodes = queue.nodes ++ rootChildren d cs ∧
        Linked patterns label n d' (linked ++ rootChildren d cs) ∧
        ∀ s, (d'.root s).g = (d.root s).g := by
  intro cs
  induction cs with
  | nil =>
    intro d queue linked _ h _
    refine ⟨d, queue, rfl, ?_, ?_, fun _ => rfl⟩
    · simp [rootChildren]
    · simpa [rootChildren] using h
  | cons c cs ih =>
    intro d queue linked hnodup h hnew
    obtain ⟨hc, hnodup'⟩ := List.nodup_cons.mp hnodup
    have hzero : d.get 0 = .ok (d.root 0) := get_eq_ok (hA.lt_max (Nat.zero_le n))
    -- A character without a child leads back to the root, and the loop goes on.
    by_cases hchild : (d.root 0).g c = 0
    · obtain ⟨d', queue', hrun, hq, h', hg⟩ := ih d queue linked hnodup' h
        fun x hx => hnew x (List.mem_cons_of_mem c hx)
      refine ⟨d', queue', ?_, ?_, ?_, hg⟩
      · simpa only [initChildren, hzero, ok_bind, hchild, ne_eq, not_true_eq_false, if_false]
          using hrun
      · simpa [rootChildren, hchild] using hq
      · simpa [rootChildren, hchild] using h'
    · obtain ⟨hle, hlabel⟩ := (h.transitions.root c).resolve_left fun hroot => hchild hroot.1
      have hset := links_setF d ((d.root 0).g c) 0
      have h₁ : Linked patterns label n (setF d ((d.root 0).g c) 0)
          (linked ++ [(d.root 0).g c]) := by
        refine h.link hA hle hchild (hnew c (by simp) hchild) (Nat.zero_le n) (.inl rfl) ?_ ?_
        · rw [hlabel, hA.nodes.zero]
          exact .self (.inl rfl)
        · rw [h.zero_nodes hA, List.append_nil]
          exact hset
      obtain ⟨d', queue', hrun, hq, h', hg⟩ := ih _ (queue.add ((d.root 0).g c)) _ hnodup' h₁ <| by
        intro x hx hx'
        rw [hset.g] at hx' ⊢
        rw [List.mem_append, List.mem_singleton, not_or]
        -- Two characters never lead to one child: its label ends with the character.
        refine ⟨hnew x (List.mem_cons_of_mem c hx) hx', fun heq => hc ?_⟩
        have hlabel' := ((h.transitions.root x).resolve_left fun hroot => hx' hroot.1).2
        rw [heq, hlabel] at hlabel'
        have hcx : c = x := by simpa using hlabel'
        exact hcx ▸ hx
      have hchildren : rootChildren d (c :: cs) = (d.root 0).g c :: rootChildren d cs := by
        simp [rootChildren, hchild]
      have hsame : rootChildren (setF d ((d.root 0).g c) 0) cs = rootChildren d cs := by
        rw [rootChildren, rootChildren, hset.g]
      rw [hsame] at hq h'
      refine ⟨d', queue', ?_, ?_, ?_, fun s => (hg s).trans (hset.g s)⟩
      · simpa only [initChildren, hzero, ok_bind, hchild, ne_eq, not_false_eq_true, if_true,
          modify_setF (hA.lt_max hle)] using hrun
      · rw [hq, hchildren]
        simp [DsQueue.add]
      · rw [hchildren]
        simpa using h'

/-! ### Breadth first -/

/-- The states that the traversal has visited, and its queue. -/
structure Frontier (label : Nat → List UInt8) (n : Nat) (visited queue : List Nat) : Prop where
  nodup : (visited ++ queue).Nodup
  children : ∀ r, r = 0 ∨ r ∈ visited → ∀ t ≤ n, ∀ c, label t = label r ++ [c] →
    t ∈ visited ++ queue
  parents : ∀ t ∈ visited ++ queue, ∃ r ≤ n, ∃ c, (r = 0 ∨ r ∈ visited) ∧ label t = label r ++ [c]
  sorted : queue.Pairwise fun s t => (label s).length ≤ (label t).length
  narrow : ∀ s ∈ queue, ∀ t ∈ queue, (label t).length ≤ (label s).length + 1

/-- A state whose ancestors can not be in the queue was found. -/
theorem Frontier.mem_of_short (hA : Automaton patterns label n) {visited queue : List Nat}
    (h : Frontier label n visited queue) {k : Nat} (hqueue : ∀ s ∈ queue, k ≤ (label s).length) :
    ∀ t ≤ n, t ≠ 0 → (label t).length ≤ k → t ∈ visited ++ queue := by
  suffices ∀ m, ∀ t ≤ n, t ≠ 0 → (label t).length = m → m ≤ k → t ∈ visited ++ queue from
    fun t ht ht0 hk => this _ t ht ht0 rfl hk
  intro m
  induction m using Nat.strong_induction_on with
  | _ m ih =>
    intro t ht ht0 hm hk
    rcases List.eq_nil_or_concat' (label t) with hnil | ⟨w, c, hw⟩
    · exact absurd ((hA.nodes.label_eq_nil ht).mp hnil) ht0
    · have hmem : w ∈ prefixesOf patterns :=
        (prefixClosed_prefixesOf patterns).of_append w [c] (hw ▸ hA.nodes.mem ht)
      obtain ⟨r, hr, rfl⟩ := (hA.nodes.mem_iff w).mp hmem
      have hlen : (label r).length + 1 = m := by rw [← hm, hw]; simp
      refine h.children r ?_ t ht c hw
      by_cases hr0 : r = 0
      · exact .inl hr0
      · -- The parent was found, and it is too short to be in the queue.
        rcases List.mem_append.mp (ih _ (by omega) r hr hr0 rfl (by omega)) with hvisited | hq
        · exact .inr hvisited
        · have := hqueue r hq
          omega

/-- When the queue is empty, every state was visited. -/
theorem Frontier.mem_visited (hA : Automaton patterns label n) {visited : List Nat}
    (h : Frontier label n visited []) {t : Nat} (ht : t ≤ n) (ht0 : t ≠ 0) : t ∈ visited := by
  simpa using h.mem_of_short hA (k := (label t).length) (by simp) t ht ht0 le_rfl

/-- At the head of the queue, every state that is not deeper was found. -/
theorem Frontier.mem_of_length_le (hA : Automaton patterns label n) {visited queue : List Nat}
    {cur : Nat} (h : Frontier label n visited (cur :: queue)) :
    Shallow label n (visited ++ cur :: queue) cur := by
  apply h.mem_of_short hA
  intro s hs
  rcases List.mem_cons.mp hs with rfl | hs
  · exact le_rfl
  · exact (List.pairwise_cons.mp h.sorted).1 s hs

/-- A child of the head of the queue was not found before. -/
theorem Frontier.not_mem (hA : Automaton patterns label n) {visited queue : List Nat} {cur : Nat}
    (h : Frontier label n visited (cur :: queue)) (hcur : cur ≤ n) (hcur0 : cur ≠ 0) {t : Nat}
    {c : UInt8} (hlabel : label t = label cur ++ [c]) : t ∉ visited ++ cur :: queue := by
  intro hmem
  obtain ⟨r, hr, c', hfound, hlabel'⟩ := h.parents t hmem
  have heq : r = cur := by
    apply hA.nodes.inj r hr cur hcur
    exact List.append_inj_left' (hlabel'.symm.trans hlabel) rfl
  subst heq
  rcases hfound with hzero | hvisited
  · exact hcur0 hzero
  · exact (List.nodup_append.mp h.nodup).2.2 r hvisited r (by simp) rfl

/-- The traversal visits the head of the queue and puts its children behind the others. -/
theorem Frontier.next (hA : Automaton patterns label n) {visited queue kids : List Nat} {cur : Nat}
    (h : Frontier label n visited (cur :: queue)) (hcur : cur ≤ n) (hcur0 : cur ≠ 0)
    (hnodup : kids.Nodup) (hkids : ∀ t, t ∈ kids ↔ t ≤ n ∧ ∃ c, label t = label cur ++ [c]) :
    Frontier label n (visited ++ [cur]) (queue ++ kids) := by
  -- Visited and queued together only grow by the children of `cur`.
  have hsplit : (visited ++ [cur]) ++ (queue ++ kids) = (visited ++ cur :: queue) ++ kids := by
    simp
  have hdepth : ∀ t ∈ kids, (label t).length = (label cur).length + 1 := by
    intro t ht
    obtain ⟨_, c, hlabel⟩ := (hkids t).mp ht
    simp [hlabel]
  have hcurmin : ∀ s ∈ queue, (label cur).length ≤ (label s).length :=
    (List.pairwise_cons.mp h.sorted).1
  refine ⟨?_, ?_, ?_, ?_, ?_⟩
  · rw [hsplit, List.nodup_append]
    refine ⟨h.nodup, hnodup, fun s hs t ht heq => ?_⟩
    obtain ⟨_, c, hlabel⟩ := (hkids t).mp ht
    exact h.not_mem hA hcur hcur0 hlabel (heq ▸ hs)
  · intro r hr t ht c hlabel
    rw [hsplit, List.mem_append]
    by_cases hrcur : r = cur
    · subst hrcur
      exact .inr ((hkids t).mpr ⟨ht, c, hlabel⟩)
    · exact .inl (h.children r (by simpa [hrcur] using hr) t ht c hlabel)
  · intro t ht
    rw [hsplit, List.mem_append] at ht
    rcases ht with ht | ht
    · obtain ⟨r, hr, c, hfound, hlabel⟩ := h.parents t ht
      exact ⟨r, hr, c, hfound.imp_right (List.mem_append_left _), hlabel⟩
    · obtain ⟨_, c, hlabel⟩ := (hkids t).mp ht
      exact ⟨cur, hcur, c, .inr (by simp), hlabel⟩
  · rw [List.pairwise_append]
    refine ⟨(List.pairwise_cons.mp h.sorted).2, ?_, fun s hs t ht => ?_⟩
    · exact List.Pairwise.imp_of_mem
        (fun hs ht _ => (hdepth _ hs).le.trans (hdepth _ ht).ge) hnodup
    · rw [hdepth t ht]
      exact h.narrow cur (by simp) s (List.mem_cons_of_mem _ hs)
  · intro s hs t ht
    -- The head of the queue has the shortest label in it.
    have hlow : (label cur).length ≤ (label s).length := by
      rcases List.mem_append.mp hs with hs | hs
      · exact hcurmin s hs
      · rw [hdepth s hs]
        omega
    rcases List.mem_append.mp ht with ht | ht
    · have := h.narrow cur (by simp) t (List.mem_cons_of_mem _ ht)
      omega
    · rw [hdepth t ht]
      omega

/-- The alphabet has every byte. -/
theorem mem_alphabet (c : UInt8) : c ∈ alphabet := by
  simp only [alphabet, List.mem_map, List.mem_range]
  exact ⟨c.toNat, c.toNat_lt, by simp⟩

/-- The alphabet has every byte once. -/
theorem nodup_alphabet : alphabet.Nodup := by
  rw [alphabet, List.nodup_map_iff_inj_on List.nodup_range]
  intro i hi j hj heq
  have := congrArg UInt8.toNat heq
  simpa [Nat.mod_eq_of_lt (List.mem_range.mp hi), Nat.mod_eq_of_lt (List.mem_range.mp hj)] using this

/-- The children of a state are its words with one more byte. -/
theorem mem_childrenOf (hA : Automaton patterns label n) (h : Transitions patterns label n d)
    {cur : Nat} (hcur : cur ≤ n) (hcur0 : cur ≠ 0) (t : Nat) :
    t ∈ childrenOf d cur alphabet ↔ t ≤ n ∧ ∃ c, label t = label cur ++ [c] := by
  simp only [childrenOf, List.mem_filter, List.mem_map, decide_eq_true_eq]
  constructor
  · rintro ⟨⟨c, _, rfl⟩, hne⟩
    obtain ⟨hle, hlabel⟩ := (h.inner cur hcur hcur0 c).resolve_left fun hfail => hne hfail.1
    exact ⟨hle, c, hlabel⟩
  · rintro ⟨ht, c, hlabel⟩
    obtain ⟨hle, hlabel'⟩ := (h.inner cur hcur hcur0 c).resolve_left fun hfail =>
      hfail.2 (hlabel ▸ hA.nodes.mem ht)
    have heq := hA.nodes.inj _ hle t ht (hlabel'.trans hlabel.symm)
    exact ⟨⟨c, mem_alphabet c, heq⟩, hA.ne_fail ht⟩

/-- No child is listed twice. -/
theorem nodup_childrenOf (h : Transitions patterns label n d) {cur : Nat} (hcur : cur ≤ n)
    (hcur0 : cur ≠ 0) : (childrenOf d cur alphabet).Nodup := by
  rw [childrenOf, List.filter_map, List.nodup_map_iff_inj_on (nodup_alphabet.filter _)]
  intro c hc c' hc' heq
  have hlabel := ((h.inner cur hcur hcur0 c).resolve_left fun hfail =>
    (by simpa using (List.mem_filter.mp hc).2 : ¬(d.root cur).g c = ahoFail) hfail.1).2
  have hlabel' := ((h.inner cur hcur hcur0 c').resolve_left fun hfail =>
    (by simpa using (List.mem_filter.mp hc').2 : ¬(d.root cur).g c' = ahoFail) hfail.1).2
  rw [heq, hlabel'] at hlabel
  simpa using hlabel.symm

/-- There are at most `n` linked states. -/
theorem Linked.length_le {linked : List Nat} (h : Linked patterns label n d linked)
    (hnodup : linked.Nodup) : linked.length ≤ n := by
  have hsub : linked ⊆ List.range' 1 n := by
    intro s hs
    obtain ⟨hs0, hsn⟩ := h.valid s hs
    rw [List.mem_range'_1]
    omega
  simpa using (hnodup.subperm hsub).length_le

/-- The traversal stops at an empty queue. -/
theorem traverse_nil (hA : Automaton patterns label n) (inner fuel : Nat) {visited : List Nat}
    {queue : DsQueue} (hnil : queue.nodes = []) (hfront : Frontier label n visited queue.nodes)
    (h : Linked patterns label n d (visited ++ queue.nodes)) :
    traverse inner fuel d queue = .ok d ∧ Linked patterns label n d visited ∧
      ∀ s ≤ n, s ≠ 0 → s ∈ visited := by
  rw [hnil] at hfront h
  rw [List.append_nil] at h
  refine ⟨?_, h, fun s hs hs0 => hfront.mem_visited hA hs hs0⟩
  have hempty : queue.isEmpty = true := by simp [DsQueue.isEmpty, queue.count_eq, hnil]
  unfold Spec.AhoCorasick.traverse
  rw [if_pos hempty]
  rfl

/-- The traversal terminates, and then every state is linked. -/
theorem traverse_spec (hA : Automaton patterns label n) {inner : Nat}
    (hinner : ahoMaxLength ≤ inner) :
    ∀ (fuel : Nat) (d : AhoDfa) (visited : List Nat) (queue : DsQueue),
      n ≤ fuel + visited.length → Frontier label n visited queue.nodes →
      Linked patterns label n d (visited ++ queue.nodes) →
      ∃ d' linked, traverse inner fuel d queue = .ok d' ∧ Linked patterns label n d' linked ∧
        ∀ s ≤ n, s ≠ 0 → s ∈ linked := by
  intro fuel
  induction fuel with
  | zero =>
    intro d visited queue hfuel hfront h
    have hlength := h.length_le hfront.nodup
    rw [List.length_append] at hlength
    have hnil : queue.nodes = [] := List.length_eq_zero_iff.mp (by omega)
    exact ⟨d, visited, traverse_nil hA inner 0 hnil hfront h⟩
  | succ fuel ih =>
    intro d visited queue hfuel hfront h
    obtain ⟨nodes, count, hcount⟩ := queue
    cases nodes with
    | nil => exact ⟨d, visited, traverse_nil hA inner (fuel + 1) rfl hfront h⟩
    | cons cur nodes =>
      obtain ⟨hcur0, hcur⟩ := h.valid cur (by simp)
      -- The children of `cur` are linked, and then the traversal goes on with the rest.
      obtain ⟨d₁, queue₁, hlink, hq, h₁, hg⟩ := linkChildren_spec hA hinner alphabet d
        ⟨nodes, count - 1, by simp [hcount]⟩ _ nodup_alphabet h (by simp)
        (hfront.mem_of_length_le hA) <| by
          intro c _ hne
          exact hfront.not_mem hA hcur hcur0 ((h.transitions.inner cur hcur hcur0 c).resolve_left
            fun hfail => hne hfail.1).2
      have hfront₁ := hfront.next hA hcur hcur0 (nodup_childrenOf h.transitions hcur hcur0)
        (mem_childrenOf hA h.transitions hcur hcur0)
      obtain ⟨d', linked, hrun, h', hall⟩ := ih d₁ (visited ++ [cur]) queue₁
        (by rw [List.length_append, List.length_singleton]; omega)
        (by rw [hq]; exact hfront₁)
        (by rw [hq]; simpa using h₁)
      refine ⟨d', linked, ?_, h', hall⟩
      have hempty : DsQueue.isEmpty ⟨cur :: nodes, count, hcount⟩ = false := by
        simp [DsQueue.isEmpty, hcount]
      unfold Spec.AhoCorasick.traverse
      rw [if_neg (by simp [hempty])]
      simp only [DsQueue.remove, ok_bind, hlink]
      exact hrun

/-- The table after the missing transitions of the root were looped back. -/
def loopedBack (d : AhoDfa) : AhoDfa where
  numUsedStates := d.numUsedStates
  root := Function.update d.root 0
    { d.root 0 with g := fun c => if (d.root 0).g c = ahoFail then 0 else (d.root 0).g c }

/-- Before the queue starts, no state is linked and the outputs are the state's own. -/
theorem linked_loopedBack (hA : Automaton patterns label n) (hn : d.numUsedStates = n)
    (h : Trie (prefixesOf patterns) label d) (hown : OwnOutputs patterns label d) :
    Linked patterns label n (loopedBack d) [] := by
  subst hn
  have hother : ∀ s, s ≠ 0 → (loopedBack d).root s = d.root s := fun s hs =>
    Function.update_of_ne hs _ _
  have hroot : ∀ c, ((loopedBack d).root 0).g c =
      if (d.root 0).g c = ahoFail then 0 else (d.root 0).g c := by
    intro c
    simp [loopedBack]
  refine ⟨rfl, ⟨fun c => ?_, fun s hs hs0 c => ?_⟩, by simp, by simp, by simp, fun s hs _ => ?_⟩
  · rw [hroot]
    have hgoto := h.goto 0 (Nat.zero_le _) c
    rw [h.nodes.zero, List.nil_append] at hgoto
    rcases hgoto with ⟨hfail, hnot⟩ | ⟨hle, hlabel⟩
    · rw [if_pos hfail]
      exact .inl ⟨rfl, hnot⟩
    · rw [if_neg (hA.ne_fail hle)]
      exact .inr ⟨hle, hlabel⟩
  · rw [hother s hs0]
    exact h.goto s hs c
  · have houtput : ((loopedBack d).root s).output = (d.root s).output := by
      by_cases hs0 : s = 0
      · subst hs0
        simp [loopedBack]
      · rw [hother s hs0]
    rw [houtput, hown.1 s hs]

/-- The queue before the traversal. -/
theorem frontier_rootChildren (hA : Automaton patterns label n)
    (h : Transitions patterns label n d) :
    Frontier label n [] (rootChildren d alphabet) := by
  -- A transition of the root to another state goes to the node of one byte.
  have hmem : ∀ t, t ∈ rootChildren d alphabet ↔ t ≤ n ∧ ∃ c, label t = [c] := by
    intro t
    simp only [rootChildren, List.mem_filter, List.mem_map, decide_eq_true_eq]
    constructor
    · rintro ⟨⟨c, _, rfl⟩, hne⟩
      obtain ⟨hle, hlabel⟩ := (h.root c).resolve_left fun hroot => hne hroot.1
      exact ⟨hle, c, hlabel⟩
    · rintro ⟨ht, c, hlabel⟩
      obtain ⟨hle, hlabel'⟩ := (h.root c).resolve_left fun hroot =>
        hroot.2 (hlabel ▸ hA.nodes.mem ht)
      have heq := hA.nodes.inj _ hle t ht (hlabel'.trans hlabel.symm)
      refine ⟨⟨c, mem_alphabet c, heq⟩, ?_⟩
      rintro rfl
      simp [hA.nodes.zero] at hlabel
  have hlength : ∀ t ∈ rootChildren d alphabet, (label t).length = 1 := by
    intro t ht
    obtain ⟨_, c, hlabel⟩ := (hmem t).mp ht
    simp [hlabel]
  have hnodup : (rootChildren d alphabet).Nodup := by
    rw [rootChildren, List.filter_map, List.nodup_map_iff_inj_on (nodup_alphabet.filter _)]
    intro c hc c' hc' heq
    have hlabel := ((h.root c).resolve_left fun hroot =>
      (by simpa using (List.mem_filter.mp hc).2 : ¬(d.root 0).g c = 0) hroot.1).2
    have hlabel' := ((h.root c').resolve_left fun hroot =>
      (by simpa using (List.mem_filter.mp hc').2 : ¬(d.root 0).g c' = 0) hroot.1).2
    rw [heq, hlabel'] at hlabel
    simpa using hlabel.symm
  refine ⟨hnodup, ?_, ?_, ?_, ?_⟩
  · rintro r (rfl | hr) t ht c hlabel
    · rw [hA.nodes.zero, List.nil_append] at hlabel
      exact (hmem t).mpr ⟨ht, c, hlabel⟩
    · simp at hr
  · intro t ht
    obtain ⟨_, c, hlabel⟩ := (hmem t).mp ht
    exact ⟨0, Nat.zero_le n, c, .inl rfl, by rw [hA.nodes.zero, hlabel, List.nil_append]⟩
  · exact List.Pairwise.imp_of_mem (fun hs ht _ => (hlength _ hs).le.trans (hlength _ ht).ge) hnodup
  · intro s hs t ht
    rw [hlength s hs, hlength t ht]
    omega

/-- `aho_build_ff` links every state. -/
theorem ahoBuildFf_spec (hA : Automaton patterns label n) (hn : d.numUsedStates = n)
    (h : Trie (prefixesOf patterns) label d) (hown : OwnOutputs patterns label d) {fuel : Nat}
    (hfuel : ahoMaxLength ≤ fuel) :
    ∃ d' linked, ahoBuildFf fuel d = .ok d' ∧ Linked patterns label n d' linked ∧
      ∀ s ≤ n, s ≠ 0 → s ∈ linked := by
  have hloop := linked_loopedBack hA hn h hown
  obtain ⟨d₁, queue, hinit, hq, h₁, hg⟩ := initChildren_spec hA alphabet (loopedBack d) .init []
    nodup_alphabet hloop (by simp)
  have hq' : queue.nodes = rootChildren (loopedBack d) alphabet := by simpa [DsQueue.init] using hq
  obtain ⟨d', linked, hrun, h', hall⟩ := traverse_spec hA hfuel fuel d₁ [] queue
    (by
      have := hA.lt_max (le_refl n)
      simp only [ahoMaxStates, ahoMaxLength] at *
      omega)
    (by rw [hq']; exact frontier_rootChildren hA hloop.transitions)
    (by rw [hq']; exact h₁)
  refine ⟨d', linked, ?_, h', hall⟩
  have hback : loopBack d = .ok (loopedBack d) := modify_eq_ok _ (hA.lt_max (Nat.zero_le n))
  simp only [ahoBuildFf, hback, ok_bind, hinit, hrun]

end Netstar.Proofs.AhoCorasick
