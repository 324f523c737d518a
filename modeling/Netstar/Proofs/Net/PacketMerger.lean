import Netstar.Spec.Net.PacketUtil

/-!
# `Netstar.Proofs.Net.PacketMerger`: reassembly over integer offsets

`merge` has two loops. The first one stops at the first segment that meets the new packet,
and it ignores every later segment that also meets it. The second one repairs the map. So the
map between the two loops is weaker than the map after `merge`: its segments are in order of
their starts, but neighbours can still overlap. `Repairable` states this. `secondLoop_spec`
turns such a map into a separated one with the same extent, and `firstLoop_spec` shows that
the first loop leaves such a map behind.

`Reassembles f m l` is the invariant of the whole class: the map `m` is the normal form of the
fragments `l` of the stream `f`. `merge_reassembles` is the step lemma, and
`mergeAll_reassembles` the run lemma. `Netstar.Lib.eq_of_separated` then gives one map for
every order and every repetition of the same fragments.

Empty fragments need no special treatment. A fragment with no bytes that touches no segment
stays in the map as an empty segment, and a later fragment that touches it removes it.
-/

set_option autoImplicit false

namespace Netstar.Proofs.Net

open Netstar.Lib
open Netstar.Spec.Net

/-! ### The operators over integers -/

/-- Over the integers the order of the offsets is the usual one. -/
@[simp] theorem lt_int (a b : Int) : MergeOffset.lt a b = decide (a < b) := rfl

/-- Over the integers the order of the offsets is the usual one, with equality. -/
@[simp] theorem le_int (a b : Int) : MergeOffset.le a b = decide (a ≤ b) := by
  rw [MergeOffset.le, lt_int, ← decide_not]
  exact decide_eq_decide.mpr not_lt

/-- Over the integers an offset advances by addition. -/
@[simp] theorem advance_int (a : Int) (n : Nat) : MergeOffset.advance a n = a + n := rfl

/-- Over the integers the distance is the difference. -/
@[simp] theorem distance_int (a b : Int) : MergeOffset.distance a b = a - b := rfl

/-- A trim that the packet can take. -/
theorem trimFront_ok (p : Packet) (k : Int) (h0 : 0 ≤ k) (hk : k ≤ p.length) :
    trimFront p k = .ok (p.drop k.toNat) := if_pos ⟨h0, hk⟩

/-! ### The invariants -/

/-- The map `m` holds exactly the fragments `l` of the stream `f`: the segments of `m` are in
order with a gap between neighbours, they cover and touch what the fragments cover and touch,
and they carry the bytes of the stream. -/
structure Reassembles (f : Int → UInt8) (m l : List (Seg UInt8)) : Prop where
  separated : Separated m
  extent : SameExtent m l
  agrees : ∀ s ∈ m, Agrees f s

/-- The map between the two loops: in order of the starts, with the right extent and the right
bytes. Neighbours can overlap. -/
structure Repairable (f : Int → UInt8) (m l : List (Seg UInt8)) : Prop where
  sorted : Sorted m
  extent : SameExtent m l
  agrees : ∀ s ∈ m, Agrees f s

/-! ### The second loop -/

/-- The second loop never aborts and never trims too much. It ends with a separated map that
has the extent of the map it started from. -/
theorem secondLoop_spec (f : Int → UInt8) :
    ∀ (rest : List (Seg UInt8)) (seg : Seg UInt8), Sorted (seg :: rest) →
      (∀ s ∈ seg :: rest, Agrees f s) →
      ∃ m, secondLoop seg rest = .ok m ∧ Reassembles f m (seg :: rest) ∧
        ∀ s ∈ m, seg.1 ≤ s.1 := by
  intro rest
  -- The induction is on the map that is left, for every segment in front of it.
  induction rest with
  | nil =>
    intro seg _ hagrees
    refine ⟨[seg], rfl, ⟨List.pairwise_singleton _ _, SameExtent.refl _, hagrees⟩, ?_⟩
    intro s hs
    rw [List.mem_singleton.mp hs]
  | cons next rest ih =>
    obtain ⟨beg, p⟩ := next
    rintro ⟨segBeg, segPkt⟩ hsorted hagrees
    have hlt : segBeg < beg := (List.pairwise_cons.mp hsorted).1 (beg, p) (by simp)
    have hrest : Sorted ((beg, p) :: rest) := (List.pairwise_cons.mp hsorted).2
    have hseg : ∀ s ∈ rest, segBeg < s.1 :=
      fun s hs => (List.pairwise_cons.mp hsorted).1 s (by simp [hs])
    have hdrop : Sorted ((segBeg, segPkt) :: rest) :=
      List.pairwise_cons.mpr ⟨hseg, (List.pairwise_cons.mp hrest).2⟩
    simp only [secondLoop, le_int, lt_int, advance_int, distance_int]
    by_cases hjoin : beg ≤ segBeg + segPkt.length ∧ segBeg + segPkt.length < beg + p.length
    · -- The next segment continues this one: append what it adds and erase it.
      rw [if_pos (by simp; omega), trimFront_ok _ _ (by omega) (by omega)]
      have hnew : Agrees f (segBeg, segPkt ++ p.drop (segBeg + segPkt.length - beg).toNat) :=
        (hagrees (segBeg, segPkt) (by simp)).extend (hagrees (beg, p) (by simp)) _ (by omega)
      obtain ⟨m, hm, hre, hge⟩ := ih (segBeg, segPkt ++ p.drop _)
        (List.pairwise_cons.mpr ⟨hseg, (List.pairwise_cons.mp hrest).2⟩) (fun s hs => by
          rcases List.mem_cons.mp hs with rfl | hs
          · exact hnew
          · exact hagrees s (by simp [hs]))
      refine ⟨m, hm, ⟨hre.separated, hre.extent.trans ?_, hre.agrees⟩, hge⟩
      exact (sameExtent_extend rest segBeg beg segPkt p (le_of_lt hlt) hjoin.1 hjoin.2).symm
    · rw [if_neg (by simp; omega)]
      by_cases hin : beg + p.length ≤ segBeg + segPkt.length
      · -- The next segment lies inside this one: erase it.
        rw [if_pos (by simpa using hin)]
        obtain ⟨m, hm, hre, hge⟩ := ih (segBeg, segPkt) hdrop (fun s hs => by
          rcases List.mem_cons.mp hs with rfl | hs
          · exact hagrees _ (by simp)
          · exact hagrees s (by simp [hs]))
        refine ⟨m, hm, ⟨hre.separated, hre.extent.trans ?_, hre.agrees⟩, hge⟩
        exact ((sameExtent_swap _ _ rest).trans
          (sameExtent_absorb (s := (beg, p)) (t := (segBeg, segPkt)) rest (le_of_lt hlt) hin)).symm
      · -- A gap: go on from the next segment. The last branch, `abort`, is not reachable.
        rw [if_neg (by simpa using hin), if_pos (by simp; omega)]
        obtain ⟨m, hm, hre, hge⟩ := ih (beg, p) hrest
          (fun s hs => hagrees s (by simp [List.mem_cons.mp hs]))
        refine ⟨(segBeg, segPkt) :: m, by rw [hm]; rfl, ⟨?_, hre.extent.cons _, ?_⟩, ?_⟩
        · refine List.pairwise_cons.mpr ⟨fun s hs => ?_, hre.separated⟩
          have hbeg := hge s hs
          simp only [Seg.stop_mk]
          omega
        · intro s hs
          rcases List.mem_cons.mp hs with rfl | hs
          · exact hagrees _ (by simp)
          · exact hre.agrees s hs
        · intro s hs
          rcases List.mem_cons.mp hs with rfl | hs
          · exact le_refl _
          · exact le_trans (le_of_lt hlt) (hge s hs)

/-- The second loop repairs the map. -/
theorem mergeAdjacent_spec {f : Int → UInt8} {m l : List (Seg UInt8)} (h : Repairable f m l) :
    ∃ m', mergeAdjacent m = .ok m' ∧ Reassembles f m' l := by
  cases m with
  | nil => exact ⟨[], rfl, ⟨List.Pairwise.nil, h.extent, h.agrees⟩⟩
  | cons seg rest =>
    obtain ⟨m', hm', hre, -⟩ := secondLoop_spec f rest seg h.sorted h.agrees
    exact ⟨m', hm', ⟨hre.separated, hre.extent.trans h.extent, hre.agrees⟩⟩

/-! ### The first loop -/

/-- What the first loop leaves behind, for each of its three ends. `m` is the map before the
loop and `(beg, p)` the new fragment. The starts in the new map are starts of `m`, and no
segment starts at `beg` when the packet still has to be inserted there. -/
def FirstLoopPost (f : Int → UInt8) (beg : Int) (p : Packet) (m : List (Seg UInt8)) :
    FirstLoop Int → Prop
  | .covered => SameExtent m ((beg, p) :: m)
  | .insert m' p' =>
    Repairable f m' m' ∧ (∀ t ∈ m', ∃ s ∈ m, s.1 = t.1) ∧ (∀ t ∈ m', t.1 ≠ beg) ∧
      Agrees f (beg, p') ∧ SameExtent ((beg, p') :: m') ((beg, p) :: m)
  | .extended m' =>
    Repairable f m' ((beg, p) :: m) ∧ ∀ t ∈ m', ∃ s ∈ m, s.1 = t.1

/-- A segment in front of the map stays in front of what the first loop leaves behind. -/
theorem firstLoopPost_keep {f : Int → UInt8} {beg : Int} {p : Packet} {m : List (Seg UInt8)}
    {e : Seg UInt8} {r : FirstLoop Int} (hsorted : ∀ s ∈ m, e.1 < s.1) (he : Agrees f e)
    (hne : e.1 ≠ beg) (h : FirstLoopPost f beg p m r) :
    FirstLoopPost f beg p (e :: m) (r.keep e) := by
  have hstart : ∀ {m' : List (Seg UInt8)}, (∀ t ∈ m', ∃ s ∈ m, s.1 = t.1) →
      (∀ t ∈ m', e.1 < t.1) ∧ ∀ t ∈ e :: m', ∃ s ∈ e :: m, s.1 = t.1 := by
    intro m' hm'
    refine ⟨fun t ht => ?_, fun t ht => ?_⟩
    · obtain ⟨s, hs, hst⟩ := hm' t ht
      exact hst ▸ hsorted s hs
    · rcases List.mem_cons.mp ht with rfl | ht
      · exact ⟨t, by simp, rfl⟩
      · obtain ⟨s, hs, hst⟩ := hm' t ht
        exact ⟨s, by simp [hs], hst⟩
  have hagrees : ∀ {m' : List (Seg UInt8)}, (∀ t ∈ m', Agrees f t) →
      ∀ t ∈ e :: m', Agrees f t := by
    intro m' hm' t ht
    rcases List.mem_cons.mp ht with rfl | ht
    · exact he
    · exact hm' t ht
  cases r with
  | covered =>
    exact (SameExtent.cons e h).trans (sameExtent_swap e (beg, p) m)
  | insert m' p' =>
    obtain ⟨hrep, hm', hbeg, hp', hext⟩ := h
    refine ⟨⟨List.pairwise_cons.mpr ⟨(hstart hm').1, hrep.sorted⟩, SameExtent.refl _,
      hagrees hrep.agrees⟩, (hstart hm').2, fun t ht => ?_, hp', ?_⟩
    · rcases List.mem_cons.mp ht with rfl | ht
      · exact hne
      · exact hbeg t ht
    · exact (sameExtent_swap (beg, p') e m').trans
        ((hext.cons e).trans (sameExtent_swap e (beg, p) m))
  | extended m' =>
    obtain ⟨hrep, hm'⟩ := h
    exact ⟨⟨List.pairwise_cons.mpr ⟨(hstart hm').1, hrep.sorted⟩,
      (hrep.extent.cons e).trans (sameExtent_swap e (beg, p) m), hagrees hrep.agrees⟩,
      (hstart hm').2⟩

/-- The first loop on a separated map: no trim fails, and its post-state holds. The cases 1 to
4 of the source are the four ways in which the head segment meets the new fragment. -/
theorem firstLoop_spec (f : Int → UInt8) (beg : Int) (p : Packet) (hp : Agrees f (beg, p)) :
    ∀ m : List (Seg UInt8), Separated m → (∀ s ∈ m, Agrees f s) →
      ∃ r, firstLoop beg p m = .ok r ∧ FirstLoopPost f beg p m r := by
  intro m
  induction m with
  | nil =>
    intro _ hagrees
    exact ⟨.insert [] p, rfl, ⟨List.Pairwise.nil, SameExtent.refl _, hagrees⟩, by simp, by simp,
      hp, SameExtent.refl _⟩
  | cons seg rest ih =>
    obtain ⟨segBeg, segPkt⟩ := seg
    intro hsep hagrees
    have hseg : Agrees f (segBeg, segPkt) := hagrees _ (by simp)
    have hrest : ∀ s ∈ rest, Agrees f s := fun s hs => hagrees s (by simp [hs])
    have hafter : ∀ s ∈ rest, segBeg + segPkt.length < s.1 := hsep.head_lt
    -- `rest` as a map, and its starts as starts of the whole map.
    have hrep : Repairable f rest rest := ⟨hsep.tail.sorted, SameExtent.refl _, hrest⟩
    have hmem : ∀ t ∈ rest, ∃ s ∈ (segBeg, segPkt) :: rest, s.1 = t.1 :=
      fun t ht => ⟨t, by simp [ht], rfl⟩
    simp only [firstLoop, le_int, lt_int, advance_int, distance_int]
    by_cases h1 : segBeg ≤ beg ∧ beg + p.length ≤ segBeg + segPkt.length
    · rw [if_pos (by simpa using h1)]
      exact ⟨.covered, rfl, (sameExtent_absorb (s := (beg, p)) (t := (segBeg, segPkt)) rest
        h1.1 h1.2).symm⟩
    rw [if_neg (by simpa using h1)]
    by_cases h2 : beg ≤ segBeg ∧ segBeg + segPkt.length ≤ beg + p.length
    · rw [if_pos (by simpa using h2)]
      refine ⟨.insert rest p, rfl, hrep, hmem, fun t ht => ?_, hp, ?_⟩
      · have := hafter t ht
        omega
      · exact ((sameExtent_swap _ _ rest).trans
          (sameExtent_absorb (s := (segBeg, segPkt)) (t := (beg, p)) rest h2.1 h2.2)).symm
    rw [if_neg (by simpa using h2)]
    by_cases h3 : beg < segBeg ∧ segBeg ≤ beg + p.length ∧
        beg + p.length ≤ segBeg + segPkt.length
    · rw [if_pos (by simp; omega), trimFront_ok _ _ (by omega) (by omega)]
      have hlt : beg + p.length < segBeg + segPkt.length := by omega
      refine ⟨.insert rest (p ++ segPkt.drop (beg + p.length - segBeg).toNat), rfl, hrep, hmem,
        fun t ht => ?_, hp.extend hseg _ (by omega), ?_⟩
      · have := hafter t ht
        omega
      · exact (sameExtent_extend rest beg segBeg p segPkt (le_of_lt h3.1) h3.2.1 hlt).symm
    rw [if_neg (by simp; omega)]
    by_cases h4 : segBeg ≤ beg ∧ beg ≤ segBeg + segPkt.length ∧
        segBeg + segPkt.length < beg + p.length
    · rw [if_pos (by simp; omega), trimFront_ok _ _ (by omega) (by omega)]
      refine ⟨.extended ((segBeg, segPkt ++ p.drop (segBeg + segPkt.length - beg).toNat) :: rest),
        rfl, ⟨?_, ?_, ?_⟩, ?_⟩
      · refine List.pairwise_cons.mpr ⟨fun t ht => ?_, hsep.tail.sorted⟩
        have := hafter t ht
        show segBeg < t.1
        omega
      · exact ((sameExtent_swap _ _ rest).trans
          (sameExtent_extend rest segBeg beg segPkt p h4.1 h4.2.1 h4.2.2)).symm
      · intro t ht
        rcases List.mem_cons.mp ht with rfl | ht
        · exact hseg.extend hp _ (by omega)
        · exact hrest t ht
      · intro t ht
        rcases List.mem_cons.mp ht with rfl | ht
        · exact ⟨(segBeg, segPkt), by simp, rfl⟩
        · exact hmem t ht
    rw [if_neg (by simp; omega)]
    -- Cases 5 and 6: the fragment does not meet this segment.
    obtain ⟨r, hr, hpost⟩ := ih hsep.tail hrest
    refine ⟨r.keep (segBeg, segPkt), by rw [hr]; rfl, firstLoopPost_keep (fun s hs => ?_) hseg
      (show segBeg ≠ beg by omega) hpost⟩
    have := hafter s hs
    show segBeg < s.1
    omega

/-- `emplace` of a key that the map does not have: the entries stay in order, and the new one
joins them. -/
theorem mapEmplace_spec (beg : Int) (p : Packet) :
    ∀ m : List (Seg UInt8), Sorted m → (∀ t ∈ m, t.1 ≠ beg) →
      Sorted (mapEmplace beg p m) ∧ ∀ t, t ∈ mapEmplace beg p m ↔ t ∈ (beg, p) :: m := by
  intro m
  induction m with
  | nil => exact fun _ _ => ⟨List.pairwise_singleton _ _, fun _ => Iff.rfl⟩
  | cons e rest ih =>
    obtain ⟨k, q⟩ := e
    intro hsorted hne
    have hk : k ≠ beg := hne (k, q) (by simp)
    obtain ⟨hhead, htail⟩ := List.pairwise_cons.mp hsorted
    simp only [mapEmplace, lt_int, decide_eq_true_eq]
    by_cases hlt : beg < k
    · rw [if_pos hlt]
      refine ⟨List.pairwise_cons.mpr ⟨fun t ht => ?_, hsorted⟩, fun _ => Iff.rfl⟩
      rcases List.mem_cons.mp ht with rfl | ht
      · exact hlt
      · exact lt_trans hlt (hhead t ht)
    · have hgt : k < beg := by omega
      rw [if_neg hlt, if_pos hgt]
      obtain ⟨hs, hmem⟩ := ih htail (fun t ht => hne t (by simp [ht]))
      refine ⟨List.pairwise_cons.mpr ⟨fun t ht => ?_, hs⟩, fun t => ?_⟩
      · rcases List.mem_cons.mp ((hmem t).mp ht) with rfl | ht
        · exact hgt
        · exact hhead t ht
      · simp only [List.mem_cons, hmem t]
        tauto

/-! ### `merge` -/

/-- One `merge` call. The map afterwards holds the old fragments and the new one. -/
theorem merge_reassembles {f : Int → UInt8} {m l : List (Seg UInt8)} (h : Reassembles f m l)
    (offset : Int) (p : Packet) (hp : Agrees f (offset, p)) :
    ∃ m', merge m offset p = .ok m' ∧ Reassembles f m' ((offset, p) :: l) := by
  obtain ⟨r, hr, hpost⟩ := firstLoop_spec f offset p hp m h.separated h.agrees
  have hl : SameExtent ((offset, p) :: m) ((offset, p) :: l) := h.extent.cons _
  cases r with
  | covered =>
    refine ⟨m, ?_, ⟨h.separated, SameExtent.trans hpost hl, h.agrees⟩⟩
    simp only [merge, hr]
    rfl
  | insert m₁ p₁ =>
    obtain ⟨hrep, -, hne, hp₁, hext⟩ := hpost
    obtain ⟨hsorted, hmem⟩ := mapEmplace_spec offset p₁ m₁ hrep.sorted hne
    have hrep' : Repairable f (mapEmplace offset p₁ m₁) ((offset, p) :: l) := by
      refine ⟨hsorted, (sameExtent_of_mem_iff hmem).trans (hext.trans hl), fun s hs => ?_⟩
      rcases List.mem_cons.mp ((hmem s).mp hs) with rfl | hs
      · exact hp₁
      · exact hrep.agrees s hs
    obtain ⟨m', hm', hre⟩ := mergeAdjacent_spec hrep'
    refine ⟨m', ?_, hre⟩
    simp only [merge, hr]
    exact hm'
  | extended m₁ =>
    obtain ⟨hrep, -⟩ := hpost
    obtain ⟨m', hm', hre⟩ := mergeAdjacent_spec
      (⟨hrep.sorted, hrep.extent.trans hl, hrep.agrees⟩ : Repairable f m₁ ((offset, p) :: l))
    refine ⟨m', ?_, hre⟩
    simp only [merge, hr]
    exact hm'

/-- A run of `merge` calls from a map that holds the fragments `l`. The run adds the calls to
the fragments, the last one first. -/
theorem foldlM_merge_reassembles (f : Int → UInt8) :
    ∀ (calls m l : List (Seg UInt8)), Reassembles f m l → (∀ c ∈ calls, Agrees f c) →
      ∃ m', calls.foldlM (fun map c => merge map c.1 c.2) m = .ok m' ∧
        Reassembles f m' (calls.reverse ++ l) := by
  intro calls
  induction calls with
  | nil => exact fun m l h _ => ⟨m, rfl, h⟩
  | cons c calls ih =>
    intro m l h hc
    obtain ⟨m₁, hm₁, h₁⟩ := merge_reassembles h c.1 c.2 (hc c (by simp))
    obtain ⟨m', hm', h'⟩ := ih m₁ (c :: l) h₁ (fun d hd => hc d (by simp [hd]))
    refine ⟨m', ?_, by simpa using h'⟩
    rw [List.foldlM_cons, hm₁]
    exact hm'

/-- A run of `merge` calls on an empty `packet_merger`. -/
theorem mergeAll_reassembles (f : Int → UInt8) (calls : List (Seg UInt8))
    (h : ∀ c ∈ calls, Agrees f c) :
    ∃ m, mergeAll calls = .ok m ∧ Reassembles f m calls := by
  obtain ⟨m, hm, hre⟩ := foldlM_merge_reassembles f calls [] []
    ⟨List.Pairwise.nil, SameExtent.refl _, by simp⟩ h
  refine ⟨m, hm, hre.separated, hre.extent.trans ?_, hre.agrees⟩
  exact sameExtent_of_mem_iff (by simp)

/-- `packet_merger` over integer offsets. The fragments of the calls carry the bytes of one
stream `f`. Then no call aborts and no trim fails. The map holds the segments in order with a
gap of at least one byte between neighbours, it covers exactly the offsets of the merged
ranges, and each segment carries the bytes of the stream. Another sequence of calls with the
same fragments, in any order and with any repetition, gives the same map. -/
theorem mergeAll_correct (f : Int → UInt8) (calls : List (Int × Packet))
    (h : ∀ c ∈ calls, c.2 = slice f c.1 c.2.length) :
    (∃ m, mergeAll calls = .ok m ∧
      m.Pairwise (fun a b => a.1 + (a.2.length : Int) < b.1) ∧
      (∀ x, (∃ s ∈ m, s.1 ≤ x ∧ x < s.1 + s.2.length) ↔
        ∃ c ∈ calls, c.1 ≤ x ∧ x < c.1 + c.2.length) ∧
      ∀ s ∈ m, s.2 = slice f s.1 s.2.length) ∧
    ∀ calls' : List (Int × Packet), (∀ c, c ∈ calls' ↔ c ∈ calls) →
      mergeAll calls' = mergeAll calls := by
  obtain ⟨m, hm, hre⟩ := mergeAll_reassembles f calls h
  refine ⟨⟨m, hm, hre.separated, hre.extent.1, hre.agrees⟩, fun calls' hcalls => ?_⟩
  obtain ⟨m', hm', hre'⟩ := mergeAll_reassembles f calls' (fun c hc => h c ((hcalls c).mp hc))
  have hext : SameExtent m' m :=
    hre'.extent.trans ((sameExtent_of_mem_iff hcalls).trans hre.extent.symm)
  rw [hm, hm', eq_of_separated hre'.separated hre.separated hre'.agrees hre.agrees hext]

/-- Three fragments of a constant stream. The last one fills the hole between the others. -/
theorem mergeAll_correct_hole_filled :
    ∃ m, mergeAll [((4 : Int), [9, 9]), (0, [9, 9]), (1, [9, 9, 9, 9])] = .ok m ∧
      m.Pairwise (fun a b => a.1 + (a.2.length : Int) < b.1) := by
  obtain ⟨⟨m, hm, hsep, -⟩, -⟩ := mergeAll_correct (fun _ => 9)
    [((4 : Int), [9, 9]), (0, [9, 9]), (1, [9, 9, 9, 9])] (by decide)
  exact ⟨m, hm, hsep⟩

end Netstar.Proofs.Net
