import Mathlib.Data.List.Perm.Subperm
import Netstar.Lib.Tiling
import Netstar.Proofs.Core.PageList
import Netstar.Lib.Result
import Netstar.Spec.Core.CpuPages

/-!
# `Netstar.Proofs.Core.CpuPages`: the search for a free span

`Listed` says which spans the free lists hold: list number `i` has those with a size from `2^i` to
`2^(i + 1) - 1`. `FreeLists` says that these are the free blocks of a tiling of the pages.

A span with enough pages is in the list of the logarithm of its size, and the search starts at the
least list whose spans are all large enough. Only the list just below can have others
(`index_between`), and the search looks there when the other lists are empty.
-/

set_option autoImplicit false

namespace Netstar.Proofs.Core.CpuPages

open Netstar.Lib
open Netstar.Spec.Core
open Netstar.Spec.Core.CpuPages

variable {s t : CpuPages} {blocks spans : List Block} {F : Nat → List Nat} {n : UInt32} {boot : Boot}

/-! ### The numbers of the lists -/

/-- There is a list for every number of pages. -/
theorem log2_lt_32 {x : UInt32} (h : x ≠ 0) : x.toNat.log2 < 32 := by
  have hzero : x.toNat ≠ 0 := fun hz => h (UInt32.toNat_inj.mp hz)
  exact (Nat.log2_lt hzero).mpr x.toNat_lt

/-- `index_of` is the logarithm. -/
theorem indexOf_eq (h : n ≠ 0) : indexOf n = .ok n.toNat.log2 := by
  have hlt := log2_lt_32 h
  rw [indexOf, countLeadingZerosUnsigned, if_neg h, ok_bind]
  exact congrArg Except.ok (by omega)

/-- A number of pages that is not 0 is positive. -/
theorem toNat_pos (h : n ≠ 0) : 0 < n.toNat :=
  Nat.pos_of_ne_zero fun hz => h (UInt32.toNat_inj.mp hz)

/-- `index_of_conservative` finds the least list whose spans are all large enough. -/
theorem indexOfConservative_spec (h : n ≠ 0) :
    ∃ i, indexOfConservative n = .ok i ∧ ∀ j, n.toNat ≤ 2 ^ j ↔ i ≤ j := by
  have hpos := toNat_pos h
  by_cases hone : n = 1
  · refine ⟨0, if_pos hone, fun j => ?_⟩
    have hj := Nat.two_pow_pos j
    have htoNat : n.toNat = 1 := by
      rw [hone]
      rfl
    omega
  · have hne : n.toNat ≠ 1 := fun hn => hone (UInt32.toNat_inj.mp hn)
    have hpred : (n - 1).toNat = n.toNat - 1 := by
      have hlt := n.toNat_lt
      rw [UInt32.toNat_sub]
      show (2 ^ 32 - 1 + n.toNat) % 2 ^ 32 = n.toNat - 1
      omega
    have hpred' : n - 1 ≠ 0 := by
      intro hzero
      rw [hzero] at hpred
      have hzero' : (0 : UInt32).toNat = 0 := rfl
      omega
    have hlt := log2_lt_32 hpred'
    rw [hpred] at hlt
    refine ⟨(n.toNat - 1).log2 + 1, ?_, fun j => ?_⟩
    · rw [indexOfConservative, if_neg hone, countLeadingZerosUnsigned, if_neg hpred', ok_bind, hpred]
      exact congrArg Except.ok (by omega)
    · have hlog : (n.toNat - 1).log2 < j ↔ n.toNat - 1 < 2 ^ j := Nat.log2_lt (by omega)
      omega

/-- Only spans of the list just below the first one can be large enough or not. -/
theorem index_between {i : Nat} (h : n ≠ 0) (hi : ∀ j, n.toNat ≤ 2 ^ j ↔ i ≤ j) :
    n.toNat.log2 ≤ i ∧ i ≤ n.toNat.log2 + 1 := by
  have hne : n.toNat ≠ 0 := Nat.ne_of_gt (toNat_pos h)
  constructor
  · have hle : n.toNat ≤ 2 ^ i := (hi i).mpr (Nat.le_refl i)
    have hlow := Nat.log2_self_le hne
    exact (Nat.pow_le_pow_iff_right (by decide)).mp (Nat.le_trans hlow hle)
  · exact (hi _).mp (Nat.le_of_lt Nat.lt_log2_self)

/-- Up to 30 the shift does not leave the type. -/
theorem shiftTwo_eq {i : Nat} (h : i ≤ 30) : ∃ limit, shiftTwo i = .ok limit ∧ limit.toNat = 2 * 2 ^ i := by
  refine ⟨_, if_neg (by omega), ?_⟩
  have hpow : 2 ^ i ≤ 2 ^ 30 := Nat.pow_le_pow_right (by decide) h
  rw [UInt32.toNat_ofNat_of_lt']
  show 2 * 2 ^ i < 2 ^ 32
  omega

/-- The guard before the search lets sizes through whose list is found. -/
theorem not_limit_le {i : Nat} {limit : UInt32} (hi : ∀ j, n.toNat ≤ 2 ^ j ↔ i ≤ j)
    (hlimit : limit.toNat = 2 * 2 ^ i) : ¬ limit ≤ n := by
  have hni : n.toNat ≤ 2 ^ i := (hi i).mpr (Nat.le_refl i)
  have hpow := Nat.two_pow_pos i
  rw [UInt32.le_iff_toNat_le]
  omega

/-! ### The free lists -/

/-- The free lists hold the spans. -/
structure Listed (s : CpuPages) (F : Nat → List Nat) (spans : List Block) : Prop where
  holds : ∀ i < nrSpanLists, (s.freeSpans i).Holds s.pages (F i)
  mem : ∀ i < nrSpanLists, ∀ x, x ∈ F i ↔
    ∃ b ∈ spans, b.start = x ∧ 2 ^ i ≤ b.size ∧ b.size < 2 ^ (i + 1)
  size : ∀ b ∈ spans, (s.pages b.start).spanSize = b.size
  inj : ∀ b ∈ spans, ∀ b' ∈ spans, b.start = b'.start → b = b'

/-- What the search needs of the invariant of the allocator: the free lists hold the free blocks of a
tiling of the pages, whose number has 32 bits. -/
structure FreeLists (s : CpuPages) (blocks : List Block) : Prop where
  tiles : Tiles 0 blocks s.nrPages
  fits : s.nrPages < 2 ^ 32
  listed : ∃ F, Listed s F (blocks.filter Block.free)

/-- A free block with enough pages. -/
def Fits (n : UInt32) (b : Block) : Prop := b.free = true ∧ n.toNat ≤ b.size

/-- A span is in the list of the logarithm of its size. -/
theorem Listed.mem_log2 (h : Listed s F spans) {b : Block} (hb : b ∈ spans) (hpos : 0 < b.size)
    (hlt : b.size < 2 ^ 32) : b.size.log2 < nrSpanLists ∧ b.start ∈ F b.size.log2 := by
  have hne : b.size ≠ 0 := Nat.ne_of_gt hpos
  have hlog : b.size.log2 < nrSpanLists := (Nat.log2_lt hne).mpr hlt
  exact ⟨hlog, (h.mem _ hlog _).mpr ⟨b, hb, rfl, Nat.log2_self_le hne, Nat.lt_log2_self⟩⟩

/-- Two lists have no span in common. -/
theorem Listed.eq_of_mem (h : Listed s F spans) {i j x : Nat} (hi : i < nrSpanLists)
    (hj : j < nrSpanLists) (hxi : x ∈ F i) (hxj : x ∈ F j) : i = j := by
  obtain ⟨b, hb, hbx, hlow, hhigh⟩ := (h.mem i hi x).mp hxi
  obtain ⟨b', hb', hbx', hlow', hhigh'⟩ := (h.mem j hj x).mp hxj
  obtain rfl := h.inj b hb b' hb' (hbx.trans hbx'.symm)
  have hne : b.size ≠ 0 := by
    have hpow := Nat.two_pow_pos i
    omega
  rw [← (Nat.log2_eq_iff hne).mpr ⟨hlow, hhigh⟩, ← (Nat.log2_eq_iff hne).mpr ⟨hlow', hhigh'⟩]

/-- A span is taken out of its list. -/
theorem Listed.unlink (h : Listed s F spans) {i x : Nat} (hi : i < nrSpanLists) (hx : x ∈ F i) :
    ∃ F', Listed (s.unlink i x) F' (spans.filter fun b => b.start ≠ x) := by
  obtain ⟨l₁, l₂, hF⟩ := List.append_of_mem hx
  have hlist := h.holds i hi
  rw [hF] at hlist
  obtain ⟨herase, hlinks⟩ := PageList.erase_spec hlist
  have hnodup := hlist.nodup
  refine ⟨Function.update F i (l₁ ++ l₂), ?_, ?_, ?_, ?_⟩
  · intro j hj
    by_cases hji : j = i
    · subst hji
      show (Function.update s.freeSpans j _ j).Holds _ (Function.update F j _ j)
      rw [Function.update_self, Function.update_self]
      exact herase
    · show (Function.update s.freeSpans i _ j).Holds _ (Function.update F i _ j)
      rw [Function.update_of_ne hji, Function.update_of_ne hji]
      -- No page is in two lists, so the links of the other lists stay as they are.
      refine (h.holds j hj).congr fun y hy => hlinks.outside y fun hmem => hji ?_
      refine h.eq_of_mem hj hi hy ?_
      rw [hF]
      rcases List.mem_append.mp hmem with hmem | hmem
      · exact List.mem_append_left _ hmem
      · exact List.mem_append_right _ (List.mem_cons_of_mem x hmem)
  · intro j hj y
    have hkept : (∃ b ∈ spans.filter (fun b => b.start ≠ x), b.start = y ∧ 2 ^ j ≤ b.size ∧
        b.size < 2 ^ (j + 1)) ↔ y ∈ F j ∧ y ≠ x := by
      rw [h.mem j hj]
      constructor
      · rintro ⟨b, hb, rfl, hsize⟩
        obtain ⟨hmem, hne⟩ := List.mem_filter.mp hb
        exact ⟨⟨b, hmem, rfl, hsize⟩, by simpa using hne⟩
      · rintro ⟨⟨b, hb, rfl, hsize⟩, hne⟩
        exact ⟨b, List.mem_filter.mpr ⟨hb, by simpa using hne⟩, rfl, hsize⟩
    rw [hkept]
    by_cases hji : j = i
    · subst hji
      rw [Function.update_self, hF]
      have hnot : x ∉ l₁ ++ l₂ :=
        (List.nodup_cons.mp (List.perm_middle.nodup_iff.mp hnodup)).1
      constructor
      · intro hy
        refine ⟨?_, fun hyx => hnot (hyx ▸ hy)⟩
        rcases List.mem_append.mp hy with hy | hy
        · exact List.mem_append_left _ hy
        · exact List.mem_append_right _ (List.mem_cons_of_mem x hy)
      · rintro ⟨hy, hne⟩
        rcases List.mem_append.mp hy with hy | hy
        · exact List.mem_append_left _ hy
        · exact List.mem_append_right _ ((List.mem_cons.mp hy).resolve_left hne)
    · rw [Function.update_of_ne hji]
      exact ⟨fun hy => ⟨hy, fun hyx => hji (h.eq_of_mem hj hi (hyx ▸ hy) hx)⟩, fun hy => hy.1⟩
  · intro b hb
    have hsize := h.size b (List.mem_filter.mp hb).1
    rw [← hsize]
    exact hlinks.spanSize b.start
  · intro b hb b' hb'
    exact h.inj b (List.mem_filter.mp hb).1 b' (List.mem_filter.mp hb').1

/-- A span is put into the list of the logarithm of its size. -/
theorem Listed.link (h : Listed s F spans) {b : Block} (hpos : 0 < b.size) (hlt : b.size < 2 ^ 32)
    (hstart : b.start ≠ 0) (hnew : ∀ b' ∈ spans, b'.start ≠ b.start)
    (hsize : (s.pages b.start).spanSize = b.size) :
    ∃ F', Listed (s.link b.size.log2 b.start) F' (b :: spans) := by
  have hne : b.size ≠ 0 := Nat.ne_of_gt hpos
  have hlog : b.size.log2 < nrSpanLists := (Nat.log2_lt hne).mpr hlt
  have hfresh : ∀ i < nrSpanLists, b.start ∉ F i := by
    intro i hi hmem
    obtain ⟨b', hb', heq, -⟩ := (h.mem i hi _).mp hmem
    exact hnew b' hb' heq
  obtain ⟨hpush, hlinks⟩ :=
    PageList.pushFront_spec (h.holds _ hlog) (hfresh _ hlog) hstart
  refine ⟨Function.update F b.size.log2 (b.start :: F b.size.log2), ?_, ?_, ?_, ?_⟩
  · intro j hj
    by_cases hjb : j = b.size.log2
    · subst hjb
      show (Function.update s.freeSpans _ _ _).Holds _ (Function.update F _ _ _)
      rw [Function.update_self, Function.update_self]
      exact hpush
    · show (Function.update s.freeSpans _ _ j).Holds _ (Function.update F _ _ j)
      rw [Function.update_of_ne hjb, Function.update_of_ne hjb]
      refine (h.holds j hj).congr fun y hy => hlinks.outside y fun hmem => ?_
      rcases List.mem_cons.mp hmem with rfl | hmem
      · exact hfresh j hj hy
      · exact hjb (h.eq_of_mem hj hlog hy hmem)
  · intro j hj y
    -- The bounds of a list say that its number is the logarithm of the size.
    have hhere : b.start = y ∧ 2 ^ j ≤ b.size ∧ b.size < 2 ^ (j + 1) ↔ y = b.start ∧ j = b.size.log2 := by
      rw [← Nat.log2_eq_iff hne, eq_comm (a := y), eq_comm (a := j)]
    simp only [List.mem_cons, exists_eq_or_imp]
    rw [hhere, ← h.mem j hj]
    by_cases hjb : j = b.size.log2
    · subst hjb
      rw [Function.update_self, List.mem_cons]
      simp
    · rw [Function.update_of_ne hjb]
      simp [hjb]
  · intro b' hb'
    refine (hlinks.spanSize b'.start).trans ?_
    rcases List.mem_cons.mp hb' with rfl | hb'
    · exact hsize
    · exact h.size b' hb'
  · intro b₁ hb₁ b₂ hb₂ heq
    rcases List.mem_cons.mp hb₁ with hfirst | hrest
    · rcases List.mem_cons.mp hb₂ with hfirst' | hrest'
      · rw [hfirst, hfirst']
      · rw [hfirst] at heq
        exact absurd heq.symm (hnew b₂ hrest')
    · rcases List.mem_cons.mp hb₂ with hfirst' | hrest'
      · rw [hfirst'] at heq
        exact absurd heq (hnew b₁ hrest)
      · exact h.inj b₁ hrest b₂ hrest' heq

/-! ### The search -/

/-- `find` goes through the list. -/
theorem findLoop_spec {ary : PageArray} {m : Nat} {l : List Nat} {b bound : Nat}
    (hseg : LinkSeg (fun i => (ary i).prev) (fun i => (ary i).next) b l 0) (hzero : 0 ∉ l)
    (hbound : l.length < bound) :
    PageList.findLoop ary m bound (l.headD 0) =
      .ok (l.find? fun x => decide (m ≤ (ary x).spanSize)) := by
  induction l generalizing b bound with
  | nil =>
    cases bound with
    | zero => exact absurd hbound (Nat.not_lt_zero _)
    | succ bound => rfl
  | cons x l ih =>
    cases bound with
    | zero => exact absurd hbound (Nat.not_lt_zero _)
    | succ bound =>
      obtain ⟨-, hnext, hrest⟩ := hseg
      have hx : x ≠ 0 := fun heq => hzero (heq ▸ List.mem_cons_self)
      rw [PageList.findLoop]
      show (if x = 0 then _ else if (ary x).spanSize < m then
        PageList.findLoop ary m bound (ary x).next else .ok (some x)) = _
      rw [if_neg hx]
      by_cases hsize : m ≤ (ary x).spanSize
      · rw [if_neg (Nat.not_lt.mpr hsize), List.find?_cons, decide_eq_true hsize]
      · rw [if_pos (Nat.not_le.mp hsize), List.find?_cons, decide_eq_false hsize]
        have hrest' := ih hrest (fun hmem => hzero (List.mem_cons_of_mem x hmem))
          (Nat.lt_of_succ_lt_succ hbound)
        rw [← hrest']
        exact congrArg _ hnext

/-- The lists from `idx` to the result are empty, and the result is not unless it is the end. -/
theorem skipEmpty_spec (s : CpuPages) (lists idx : Nat) :
    idx ≤ s.skipEmpty lists idx ∧ s.skipEmpty lists idx ≤ idx + lists ∧
      (∀ j, idx ≤ j → j < s.skipEmpty lists idx → (s.freeSpans j).empty = true) ∧
      (s.skipEmpty lists idx < idx + lists →
        ¬ (s.freeSpans (s.skipEmpty lists idx)).empty = true) := by
  induction lists generalizing idx with
  | zero =>
    show idx ≤ idx ∧ idx ≤ idx + 0 ∧ (∀ j, idx ≤ j → j < idx → _) ∧ (idx < idx + 0 → _)
    exact ⟨Nat.le_refl _, Nat.le_refl _, fun j hj hlt => by omega, fun hlt => by omega⟩
  | succ lists ih =>
    rw [CpuPages.skipEmpty]
    by_cases hempty : (s.freeSpans idx).empty = true
    · obtain ⟨hlow, hhigh, hskipped, hfound⟩ := ih (idx + 1)
      rw [if_pos hempty]
      refine ⟨by omega, by omega, fun j hj hlt => ?_, fun hlt => hfound (by omega)⟩
      rcases Nat.eq_or_lt_of_le hj with rfl | hj
      · exact hempty
      · exact hskipped j hj hlt
    · rw [if_neg hempty]
      exact ⟨Nat.le_refl _, by omega, fun j hj hlt => by omega, fun _ => hempty⟩

/-- A list of spans is not longer than the page array. -/
theorem FreeLists.length_le (h : FreeLists s blocks) (hl : Listed s F (blocks.filter Block.free))
    {i : Nat} (hi : i < nrSpanLists) : (F i).length ≤ s.nrPages := by
  have hsub : F i ⊆ List.range s.nrPages := by
    intro x hx
    obtain ⟨b, hb, rfl, -, -⟩ := (hl.mem i hi x).mp hx
    obtain ⟨-, hpos, hle⟩ := h.tiles.bounds (List.mem_filter.mp hb).1
    exact List.mem_range.mpr (by omega)
  have hlen := (List.subperm_of_subset (hl.holds i hi).nodup hsub).length_le
  rwa [List.length_range] at hlen

/-- What a search can return: a free span with enough pages, which is then in no list, or null when
there is none. -/
inductive Outcome (n : UInt32) (blocks : List Block) : Except AllocStop (Option Nat × CpuPages) → Prop
  | span {b : Block} {t : CpuPages} {F : Nat → List Nat} (hmem : b ∈ blocks) (hfits : Fits n b)
      (hlisted : Listed t F ((blocks.filter Block.free).filter fun b' => b'.start ≠ b.start)) :
      Outcome n blocks (.ok (some b.start, t))
  | null {t : CpuPages} (hnone : ∀ b ∈ blocks, ¬ Fits n b) : Outcome n blocks (.ok (none, t))

/-- The search in one list. When it finds nothing, the spans of the list are too small. -/
theorem unlinkFrom_spec (h : FreeLists s blocks) (hl : Listed s F (blocks.filter Block.free))
    {i : Nat} (hi : i < nrSpanLists) :
    Outcome n blocks (s.unlinkFrom i n) ∧ (∃ x t, s.unlinkFrom i n = .ok (some x, t)) ∨
      s.unlinkFrom i n = .ok (none, s) ∧
        ∀ b ∈ blocks, b.free = true → b.start ∈ F i → b.size < n.toNat := by
  have hlist := hl.holds i hi
  have hbound : (F i).length < s.nrPages + 1 := Nat.lt_succ_of_le (h.length_le hl hi)
  have hfind : (s.freeSpans i).find s.pages (s.nrPages + 1) n.toNat =
      .ok ((F i).find? fun x => decide (n.toNat ≤ (s.pages x).spanSize)) := by
    rw [PageList.find, hlist.front_eq]
    exact findLoop_spec hlist.seg hlist.nonzero hbound
  rw [CpuPages.unlinkFrom, hfind]
  cases hfound : (F i).find? fun x => decide (n.toNat ≤ (s.pages x).spanSize) with
  | some x =>
    have hx : x ∈ F i := List.mem_of_find?_eq_some hfound
    have hsize : n.toNat ≤ (s.pages x).spanSize := by
      have htrue := List.find?_some hfound
      exact of_decide_eq_true htrue
    obtain ⟨b, hb, rfl, -, -⟩ := (hl.mem i hi x).mp hx
    obtain ⟨hmem, hfree⟩ := List.mem_filter.mp hb
    obtain ⟨F', hF'⟩ := hl.unlink hi hx
    rw [hl.size b hb] at hsize
    exact .inl ⟨.span hmem ⟨hfree, hsize⟩ hF', _, _, rfl⟩
  | none =>
    refine .inr ⟨rfl, fun b hb hfree hmem => ?_⟩
    have hnot := List.find?_eq_none.mp hfound b.start hmem
    rw [hl.size b (List.mem_filter.mpr ⟨hb, hfree⟩)] at hnot
    simpa using hnot

/-- The search when the pages are there. -/
theorem find_initialized (h : FreeLists s blocks) (hn : n ≠ 0) (hle : n.toNat ≤ 2 ^ 30)
    (hinit : s.nrPages ≠ 0) (calls : Nat) :
    Outcome n blocks (s.findAndUnlinkSpan boot n (calls + 1)) := by
  obtain ⟨F, hl⟩ := h.listed
  obtain ⟨i, hindex, hi⟩ := indexOfConservative_spec hn
  obtain ⟨hlow, hhigh⟩ := index_between hn hi
  have hi30 : i ≤ 30 := (hi 30).mp hle
  obtain ⟨limit, hshift, hlimit⟩ := shiftTwo_eq hi30
  have hnot : ¬ limit ≤ n := not_limit_le hi hlimit
  -- where a block with enough pages is
  have hwhere : ∀ b ∈ blocks, Fits n b → n.toNat.log2 ≤ b.size.log2 ∧ b.size.log2 < nrSpanLists ∧
      b.start ∈ F b.size.log2 := by
    rintro b hb ⟨hfree, hsize⟩
    have hpos := toNat_pos hn
    obtain ⟨-, hbpos, hbound⟩ := h.tiles.bounds hb
    have hfits := h.fits
    have hlog : n.toNat.log2 ≤ b.size.log2 := (Nat.le_log2 (Nat.ne_of_gt hbpos)).mpr
      (Nat.le_trans (Nat.log2_self_le (Nat.ne_of_gt hpos)) hsize)
    exact ⟨hlog, hl.mem_log2 (List.mem_filter.mpr ⟨hb, hfree⟩) hbpos (by omega)⟩
  obtain ⟨hstart, hstop, hskipped, hfound⟩ := skipEmpty_spec s (nrSpanLists - i) i
  have hspan : i + (nrSpanLists - i) = nrSpanLists := by
    have hlists : nrSpanLists = 32 := rfl
    omega
  rw [hspan] at hstop hfound
  rw [CpuPages.findAndUnlinkSpan, hindex, ok_bind, hshift, ok_bind, if_neg hnot]
  dsimp only
  by_cases hend : s.skipEmpty (nrSpanLists - i) i = nrSpanLists
  · -- the lists from `i` on are empty, so a block with enough pages is in the list below
    have hbelow : ∀ b ∈ blocks, Fits n b → b.size.log2 < i := by
      intro b hb hfits
      obtain ⟨-, hlt, hmem⟩ := hwhere b hb hfits
      by_contra hge
      have hempty := hskipped _ (Nat.not_lt.mp hge) (by rw [hend]; exact hlt)
      rw [(hl.holds _ hlt).empty_iff.mp hempty] at hmem
      cases hmem
    have hdone : s.initializePages boot = .ok (false, s) := if_pos hinit
    rw [if_pos hend, hdone, ok_bind]
    show Outcome n blocks (indexOf n >>= fun idx =>
      if idx = i then Except.ok (none, s) else s.unlinkFrom idx n)
    rw [indexOf_eq hn, ok_bind]
    by_cases hexact : n.toNat.log2 = i
    · rw [if_pos hexact]
      refine .null fun b hb hfits => ?_
      have hlog := (hwhere b hb hfits).1
      have hlt := hbelow b hb hfits
      omega
    · rw [if_neg hexact]
      have hidx : n.toNat.log2 < nrSpanLists := log2_lt_32 hn
      rcases unlinkFrom_spec h hl hidx with ⟨houtcome, -⟩ | ⟨hnone, hsmall⟩
      · exact houtcome
      · rw [hnone]
        refine .null fun b hb hfits => ?_
        obtain ⟨hlog, hlt, hmem⟩ := hwhere b hb hfits
        have hlt' := hbelow b hb hfits
        have heq : b.size.log2 = n.toNat.log2 := by omega
        rw [heq] at hmem
        exact Nat.not_le.mpr (hsmall b hb hfits.1 hmem) hfits.2
  · rw [if_neg hend]
    have hlt : s.skipEmpty (nrSpanLists - i) i < nrSpanLists := Nat.lt_of_le_of_ne hstop hend
    rcases unlinkFrom_spec h hl hlt with ⟨houtcome, -⟩ | ⟨-, hsmall⟩
    · exact houtcome
    · -- a span of this list has enough pages
      exfalso
      have hne : F (s.skipEmpty (nrSpanLists - i) i) ≠ [] := fun hnil =>
        hfound hlt ((hl.holds _ hlt).empty_iff.mpr hnil)
      obtain ⟨x, hx⟩ := List.exists_mem_of_ne_nil _ hne
      obtain ⟨b, hb, rfl, hsize, -⟩ := (hl.mem _ hlt x).mp hx
      obtain ⟨hmem, hfree⟩ := List.mem_filter.mp hb
      have hsmall' := hsmall b hmem hfree hx
      have henough : n.toNat ≤ 2 ^ s.skipEmpty (nrSpanLists - i) i := (hi _).mpr hstart
      omega

/-! ### The first pages -/

/-- The pages after `initialize`: those of the page array, and a free span. -/
def bootBlocks : List Block := [⟨0, 65, false⟩, ⟨65, 8127, true⟩]

/-- The free lists of an allocator without pages are empty. -/
theorem FreeLists.empty (h : FreeLists s blocks) (hzero : s.nrPages = 0) :
    blocks = [] ∧ ∀ i < nrSpanLists, (s.freeSpans i).Holds s.pages [] := by
  have htiles := h.tiles
  obtain ⟨F, hl⟩ := h.listed
  cases blocks with
  | nil =>
    refine ⟨rfl, fun i hi => ?_⟩
    have hnil : F i = [] := List.eq_nil_iff_forall_not_mem.mpr fun x hx => by
      obtain ⟨b, hb, -⟩ := (hl.mem i hi x).mp hx
      cases hb
    rw [← hnil]
    exact hl.holds i hi
  | cons b blocks =>
    obtain ⟨-, hpos, hrest⟩ := htiles
    have hle := hrest.le
    omega

/-- The span is marked at both ends and put into the list of its size. -/
theorem freeSpanNoMerge_eq {start nrPages : UInt32} (h : nrPages ≠ 0) :
    s.freeSpanNoMerge start nrPages = .ok
      (({ s with nrFreePages := s.nrFreePages + nrPages }.mark start.toNat
        (start + nrPages - 1).toNat true nrPages.toNat).link nrPages.toNat.log2 start.toNat) := by
  rw [CpuPages.freeSpanNoMerge, if_neg h]
  dsimp only
  rw [indexOf_eq h]
  rfl

/-- The first free span is put into its list. -/
theorem freeLists_boot (hlists : ∀ i < nrSpanLists, (s.freeSpans i).Holds s.pages [])
    (hsize : (s.pages 65).spanSize = 8127) (hnr : s.nrPages = 8192) :
    FreeLists (s.link (Nat.log2 8127) 65) bootBlocks := by
  have hnone : Listed s (fun _ => []) [] := by
    refine ⟨hlists, fun i _ x => ?_, (fun b hb => nomatch hb), fun b hb => nomatch hb⟩
    simp
  have hlisted := hnone.link (b := ⟨65, 8127, true⟩) (by decide) (by decide) (by decide)
    (fun b hb => nomatch hb) hsize
  have hnr' : (s.link (Nat.log2 8127) 65).nrPages = 8192 := hnr
  refine ⟨?_, ?_, hlisted⟩
  · rw [hnr']
    exact ⟨rfl, by decide, rfl, by decide, rfl⟩
  · rw [hnr']
    decide

/-- The state that `initialize` makes from an allocator without pages. -/
theorem initialize_freeLists (h : FreeLists s blocks) (hzero : s.nrPages = 0)
    (hid : boot.cpuId < maxCpus) (hmapped : boot.mapped = true) :
    ∃ t, s.initializePages boot = .ok (true, t) ∧ FreeLists t bootBlocks ∧ t.nrPages ≠ 0 := by
  have hreserved : alignUp (UInt64.ofNat (sizeofPage * ((32 <<< 20) / pageSize + 1)))
      (UInt64.ofNat pageSize) / UInt64.ofNat pageSize = 65 := by decide
  have hpages : ((32 <<< 20) / pageSize : Nat) = 8192 := by decide
  have hspan : UInt32.ofNat ((32 <<< 20) / pageSize) - (65 : UInt64).toUInt32 = 8127 := by decide
  obtain ⟨-, hempty⟩ := h.empty hzero
  rw [CpuPages.initializePages, if_neg (fun hne => hne hzero), if_neg (Nat.not_le.mpr hid),
    if_neg (by simp [hmapped])]
  dsimp only
  rw [hreserved, freeSpanNoMerge_eq (by decide), hspan, hpages]
  refine ⟨_, rfl, freeLists_boot (fun i hi => ?_) ?_ rfl, fun hnr => nomatch hnr⟩
  · exact (hempty i hi).congr fun y hy => nomatch hy
  · rfl

/-- The search when there are no pages: `initialize` fails, or the search starts again. -/
theorem find_uninitialized (h : FreeLists s blocks) (hn : n ≠ 0) (hle : n.toNat ≤ 2 ^ 30)
    (hzero : s.nrPages = 0) :
    s.findAndUnlinkSpan boot n 2 = .error (.fault .assertion) ∨
      s.findAndUnlinkSpan boot n 2 = .error .abort ∨
      Outcome n bootBlocks (s.findAndUnlinkSpan boot n 2) := by
  obtain ⟨-, hempty⟩ := h.empty hzero
  obtain ⟨i, hindex, hi⟩ := indexOfConservative_spec hn
  have hi30 : i ≤ 30 := (hi 30).mp hle
  obtain ⟨limit, hshift, hlimit⟩ := shiftTwo_eq hi30
  have hnot : ¬ limit ≤ n := not_limit_le hi hlimit
  obtain ⟨hstart, hstop, -, hfound⟩ := skipEmpty_spec s (nrSpanLists - i) i
  have hspan : i + (nrSpanLists - i) = nrSpanLists := by
    have hlists : nrSpanLists = 32 := rfl
    omega
  rw [hspan] at hstop hfound
  have hend : s.skipEmpty (nrSpanLists - i) i = nrSpanLists := by
    by_contra hne
    have hlt := Nat.lt_of_le_of_ne hstop hne
    exact hfound hlt ((hempty _ hlt).empty_iff.mpr rfl)
  rw [CpuPages.findAndUnlinkSpan, hindex, ok_bind, hshift, ok_bind, if_neg hnot]
  dsimp only
  rw [if_pos hend]
  by_cases hid : maxCpus ≤ boot.cpuId
  · left
    rw [CpuPages.initializePages, if_neg (fun hne => hne hzero), if_pos hid]
    rfl
  · right
    cases hmapped : boot.mapped with
    | false =>
      left
      rw [CpuPages.initializePages, if_neg (fun hne => hne hzero), if_neg hid,
        if_pos (by simp [hmapped])]
      rfl
    | true =>
      right
      obtain ⟨t, ht, hlists, hinit⟩ :=
        initialize_freeLists h hzero (Nat.not_le.mp hid) hmapped
      rw [ht]
      exact find_initialized hlists hn hle hinit 0

/-- More than `2^30` pages are refused, because `2u << 31` is zero. -/
theorem find_refused (hlow : 2 ^ 30 < n.toNat) (hhigh : n.toNat ≤ 2 ^ 31) (hn : n ≠ 0) :
    s.findAndUnlinkSpan boot n 2 = .error .badAlloc := by
  obtain ⟨i, hindex, hi⟩ := indexOfConservative_spec hn
  have hi31 : i = 31 := by
    have hle := (hi 31).mp hhigh
    have hlt : ¬ i ≤ 30 := fun hle' => Nat.not_le.mpr hlow ((hi 30).mpr hle')
    omega
  have hshift : shiftTwo 31 = .ok 0 := rfl
  rw [CpuPages.findAndUnlinkSpan, hindex, ok_bind, hi31, hshift, ok_bind]
  exact if_pos (UInt32.le_iff_toNat_le.mpr (Nat.zero_le _))

/-- More than `2^31` pages make the shift as wide as the type. -/
theorem find_undefined (hlow : 2 ^ 31 < n.toNat) (hn : n ≠ 0) :
    s.findAndUnlinkSpan boot n 2 = .error (.fault .undefined) := by
  obtain ⟨i, hindex, hi⟩ := indexOfConservative_spec hn
  have hi32 : 32 ≤ i := by
    have hlt : ¬ i ≤ 31 := fun hle => Nat.not_le.mpr hlow ((hi 31).mpr hle)
    omega
  have hshift : shiftTwo i = .error (.fault .undefined) := if_pos hi32
  rw [CpuPages.findAndUnlinkSpan, hindex, ok_bind, hshift]
  rfl

/-- The blocks that a search sees. -/
def searched (s : CpuPages) (blocks : List Block) : List Block :=
  if s.nrPages = 0 then bootBlocks else blocks

/-- The search returns a free span with enough pages when there is one, and null only when there is
none. -/
structure SearchRight (boot : Boot) (n : UInt32) (s : CpuPages) (blocks : List Block) : Prop where
  defined : s.findAndUnlinkSpan boot n 2 ≠ .error (.fault .undefined) ∧
    s.findAndUnlinkSpan boot n 2 ≠ .error (.fault .endless)
  found : (∃ b ∈ blocks, Fits n b) → ∃ x t, s.findAndUnlinkSpan boot n 2 = .ok (some x, t)
  span : ∀ x t, s.findAndUnlinkSpan boot n 2 = .ok (some x, t) →
    ∃ b ∈ searched s blocks, Fits n b ∧ b.start = x ∧
      ∃ F, Listed t F (((searched s blocks).filter Block.free).filter fun b' => b'.start ≠ x)
  null : ∀ t, s.findAndUnlinkSpan boot n 2 = .ok (none, t) → ∀ b ∈ searched s blocks, ¬ Fits n b

/-- `index_of_conservative` gives the least list that has only spans with enough pages. -/
def IndexRight (n : UInt32) : Prop :=
  ∃ i, indexOfConservative n = .ok i ∧
    ∀ j, (∀ size, 2 ^ j ≤ size → size < 2 ^ (j + 1) → n.toNat ≤ size) ↔ i ≤ j

/-- `index_of_conservative` is right for every number of pages. -/
theorem indexRight (hn : n ≠ 0) : IndexRight n := by
  obtain ⟨i, hindex, hi⟩ := indexOfConservative_spec hn
  refine ⟨i, hindex, fun j => ⟨fun hall => (hi j).mp ?_, fun hij size hlow _ => ?_⟩⟩
  · exact hall (2 ^ j) (Nat.le_refl _) (Nat.pow_lt_pow_right (by decide) (Nat.lt_succ_self j))
  · exact Nat.le_trans ((hi j).mpr hij) hlow

/-- A search that stops is right when no span has enough pages. -/
theorem SearchRight.of_error {e : AllocStop} (h : s.findAndUnlinkSpan boot n 2 = .error e)
    (hundefined : e ≠ .fault .undefined) (hendless : e ≠ .fault .endless)
    (hnone : ∀ b ∈ blocks, ¬ Fits n b) : SearchRight boot n s blocks := by
  refine ⟨⟨fun heq => ?_, fun heq => ?_⟩, fun ⟨b, hb, hfits⟩ => absurd hfits (hnone b hb),
    fun x t heq => ?_, fun t heq => ?_⟩
  · rw [h] at heq
    exact hundefined (Except.error.inj heq)
  · rw [h] at heq
    exact hendless (Except.error.inj heq)
  · rw [h] at heq
    cases heq
  · rw [h] at heq
    cases heq

/-- A search with an outcome is right. -/
theorem SearchRight.of_outcome (h : Outcome n (searched s blocks) (s.findAndUnlinkSpan boot n 2))
    (hsub : ∀ b ∈ blocks, b ∈ searched s blocks) : SearchRight boot n s blocks := by
  generalize hr : s.findAndUnlinkSpan boot n 2 = r at h
  cases h with
  | @span b t F hmem hfits hlisted =>
    refine ⟨⟨fun heq => ?_, fun heq => ?_⟩, fun _ => ⟨b.start, t, hr⟩, fun x t' heq => ?_,
      fun t' heq => ?_⟩
    · rw [hr] at heq
      cases heq
    · rw [hr] at heq
      cases heq
    · rw [hr] at heq
      cases heq
      exact ⟨b, hmem, hfits, rfl, F, hlisted⟩
    · rw [hr] at heq
      cases heq
  | @null t hnone =>
    refine ⟨⟨fun heq => ?_, fun heq => ?_⟩, fun ⟨b, hb, hfits⟩ => absurd hfits (hnone b (hsub b hb)),
      fun x t' heq => ?_, fun _ _ => hnone⟩
    · rw [hr] at heq
      cases heq
    · rw [hr] at heq
      cases heq
    · rw [hr] at heq
      cases heq

/-- Up to `2^30` pages the search is right in every state. -/
theorem searchRight_of_le (h : FreeLists s blocks) (hn : n ≠ 0) (hle : n.toNat ≤ 2 ^ 30) :
    SearchRight boot n s blocks := by
  by_cases hzero : s.nrPages = 0
  · obtain ⟨hnil, -⟩ := h.empty hzero
    have hsearched : searched s blocks = bootBlocks := if_pos hzero
    have hnone : ∀ b ∈ blocks, ¬ Fits n b := by
      rw [hnil]
      exact fun b hb => nomatch hb
    rcases find_uninitialized h hn hle hzero with hfault | habort | houtcome
    · exact .of_error hfault (fun heq => nomatch heq) (fun heq => nomatch heq) hnone
    · exact .of_error habort (fun heq => nomatch heq) (fun heq => nomatch heq) hnone
    · refine .of_outcome (hsearched.symm ▸ houtcome) fun b hb => ?_
      rw [hnil] at hb
      cases hb
  · have hsearched : searched s blocks = blocks := if_neg hzero
    refine .of_outcome ?_ fun b hb => hsearched.symm ▸ hb
    rw [hsearched]
    exact find_initialized h hn hle hzero 1

/-- The search and the index are right exactly up to `2^30` pages, and up to `2^31` when there is no
span of that size. -/
theorem findAndUnlinkSpan_right_iff (boot : Boot) (h : FreeLists s blocks) (hn : n ≠ 0) :
    IndexRight n ∧ SearchRight boot n s blocks ↔
      n.toNat ≤ 2 ^ 30 ∨ n.toNat ≤ 2 ^ 31 ∧ ∀ b ∈ blocks, ¬ Fits n b := by
  constructor
  · rintro ⟨-, hright⟩
    by_cases hle : n.toNat ≤ 2 ^ 30
    · exact .inl hle
    · right
      by_cases hle' : n.toNat ≤ 2 ^ 31
      · refine ⟨hle', fun b hb hfits => ?_⟩
        obtain ⟨x, t, hok⟩ := hright.found ⟨b, hb, hfits⟩
        rw [find_refused (Nat.not_le.mp hle) hle' hn] at hok
        cases hok
      · exact absurd (find_undefined (Nat.not_le.mp hle') hn) hright.defined.1
  · intro hcases
    refine ⟨indexRight hn, ?_⟩
    by_cases hle : n.toNat ≤ 2 ^ 30
    · exact searchRight_of_le h hn hle
    · obtain ⟨hle', hnone⟩ := hcases.resolve_left hle
      exact .of_error (find_refused (Nat.not_le.mp hle) hle' hn) (fun heq => nomatch heq)
        (fun heq => nomatch heq) hnone

/-- An allocator without pages has no spans. -/
theorem freeLists_create : FreeLists CpuPages.create [] :=
  ⟨rfl, by decide, fun _ => [], fun _ _ => PageList.holds_create, by simp, (fun b hb => nomatch hb),
    fun b hb => nomatch hb⟩

/-- A search for three pages, when `initialize` has made the first free span. -/
theorem findAndUnlinkSpan_right_iff_booted :
    ∃ t, CpuPages.create.initializePages ⟨0, true⟩ = .ok (true, t) ∧ t.nrPages ≠ 0 ∧
      IndexRight 3 ∧ SearchRight ⟨0, true⟩ 3 t bootBlocks := by
  obtain ⟨t, ht, hlists, hinit⟩ :=
    @initialize_freeLists CpuPages.create [] ⟨0, true⟩ freeLists_create rfl (by decide) rfl
  refine ⟨t, ht, hinit, ?_⟩
  exact (findAndUnlinkSpan_right_iff ⟨0, true⟩ hlists (by decide)).mpr (.inl (by decide))

/-- The first search, for `2^31 + 1` pages: the shift is undefined. -/
theorem not_searchRight_wide :
    CpuPages.create.findAndUnlinkSpan ⟨0, true⟩ 2147483649 2 = .error (.fault .undefined) ∧
      ¬ SearchRight ⟨0, true⟩ 2147483649 CpuPages.create [] :=
  ⟨rfl, fun h => h.defined.1 rfl⟩

end Netstar.Proofs.Core.CpuPages
