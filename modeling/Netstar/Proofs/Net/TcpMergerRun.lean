import Netstar.Proofs.Net.TcpMerger

/-!
# `Netstar.Proofs.Net.TcpMergerRun`: runs of `packet_merger` over wrapping sequence numbers

`merge_wrap` compares the maps that one `merge` call leaves over `tcp_seq` and over integers.
This file carries the comparison through a run. The fragments of a run lie in one window, and a
`merge` call keeps the segments of its map in that window (`merge_inWindow`), because the loops
only join segments that touch. So every call of the run meets the conditions of `merge_wrap`.

The cases that the loops take are compared too (`mergeCases_wrap`), and the order of the keys:
`std::map` needs a strict weak order on the keys it holds, and `tcp_seq::operator<` is one only
inside a window. `mergeAll_wrap` collects the three.
-/

set_option autoImplicit false

namespace Netstar.Proofs.Net

open Netstar.Lib
open Netstar.Spec.Net
open MergeOffset (lt advance distance)

/-! ### The cases are the branches of the loops -/

section
variable {α : Type} [MergeOffset α]

/-- One round of the first loop, by its case. -/
theorem firstLoop_cons (beg segBeg : α) (p segPkt : Packet) (rest : SegMap α) :
    firstLoop beg p ((segBeg, segPkt) :: rest) =
      match firstCase beg (advance beg p.length) segBeg (advance segBeg segPkt.length) with
      | .covered => .ok .covered
      | .covers => .ok (.insert rest p)
      | .frontOverlap => do
        let tail ← trimFront segPkt (distance (advance beg p.length) segBeg)
        return .insert rest (p ++ tail)
      | .backOverlap => do
        let tail ← trimFront p (distance (advance segBeg segPkt.length) beg)
        return .extended ((segBeg, segPkt ++ tail) :: rest)
      | .apart => (firstLoop beg p rest).map (FirstLoop.keep (segBeg, segPkt)) := by
  simp only [firstLoop, firstCase]
  split_ifs <;> rfl

/-- One round of the second loop, by its case. -/
theorem secondLoop_cons (segBeg beg : α) (segPkt p : Packet) (rest : SegMap α) :
    secondLoop (segBeg, segPkt) ((beg, p) :: rest) =
      match secondCase segBeg (advance segBeg segPkt.length) beg (advance beg p.length) with
      | .append => do
        let tail ← trimFront p (distance (advance segBeg segPkt.length) beg)
        secondLoop (segBeg, segPkt ++ tail) rest
      | .inside => secondLoop (segBeg, segPkt) rest
      | .apart => (secondLoop (beg, p) rest).map ((segBeg, segPkt) :: ·)
      | .abort => .error .abort := by
  simp only [secondLoop, secondCase]
  split_ifs <;> rfl

end

/-! ### The keys of the map -/

/-- The keys of the map, in iteration order. -/
def mapKeys (m : SegMap Int) : List Int := m.map Prod.fst

/-- An empty map has no keys. -/
@[simp] theorem mapKeys_nil : mapKeys [] = [] := rfl

/-- The key of the first segment comes first. -/
@[simp] theorem mapKeys_cons (s : Seg UInt8) (m : SegMap Int) :
    mapKeys (s :: m) = s.1 :: mapKeys m := rfl

/-- The map of an integer run is in order. -/
def KeysSorted (m : SegMap Int) : Prop := (mapKeys m).Pairwise (· < ·)

/-- What the first loop leaves behind has no new keys. -/
def FirstKeys (m : SegMap Int) : FirstLoop Int → Prop
  | .covered => True
  | .insert m' _ => (mapKeys m').Sublist (mapKeys m)
  | .extended m' => (mapKeys m').Sublist (mapKeys m)

/-- What the first loop does to the keys. -/
theorem firstLoop_keys (beg : Int) (p : Packet) :
    ∀ (m : SegMap Int) (r : FirstLoop Int), firstLoop beg p m = .ok r → FirstKeys m r := by
  intro m
  induction m with
  | nil =>
    intro r hr
    cases hr
    exact List.Sublist.refl _
  | cons seg rest ih =>
    obtain ⟨segBeg, segPkt⟩ := seg
    intro r hr
    rw [firstLoop_cons] at hr
    cases hcase : firstCase beg (advance beg p.length) segBeg (advance segBeg segPkt.length) with
    | covered =>
      rw [hcase] at hr
      cases hr
      trivial
    | covers =>
      rw [hcase] at hr
      cases hr
      exact List.sublist_cons_self _ _
    | frontOverlap =>
      rw [hcase] at hr
      cases htrim : trimFront segPkt (distance (advance beg p.length) segBeg) with
      | error e => simp only [htrim, bind, Except.bind, reduceCtorEq] at hr
      | ok tail =>
        simp only [htrim, bind, Except.bind, pure, Except.pure] at hr
        cases hr
        exact List.sublist_cons_self _ _
    | backOverlap =>
      rw [hcase] at hr
      cases htrim : trimFront p (distance (advance segBeg segPkt.length) beg) with
      | error e => simp only [htrim, bind, Except.bind, reduceCtorEq] at hr
      | ok tail =>
        simp only [htrim, bind, Except.bind, pure, Except.pure] at hr
        cases hr
        exact List.Sublist.refl _
    | apart =>
      -- The segment stays in front of what the rest of the loop leaves.
      rw [hcase] at hr
      cases hrest : firstLoop beg p rest with
      | error e => simp only [hrest, Except.map, reduceCtorEq] at hr
      | ok r' =>
        have hkeys := ih r' hrest
        simp only [hrest, Except.map] at hr
        cases hr
        cases r' with
        | covered => trivial
        | insert m' p' => exact List.Sublist.cons_cons _ hkeys
        | extended m' => exact List.Sublist.cons_cons _ hkeys

/-- Inserting a segment adds at most its key. -/
theorem mem_mapKeys_mapEmplace {beg k : Int} {p : Packet} {m : SegMap Int}
    (h : k ∈ mapKeys (mapEmplace beg p m)) : k = beg ∨ k ∈ mapKeys m := by
  induction m with
  | nil => exact .inl (List.mem_singleton.mp h)
  | cons e rest ih =>
    obtain ⟨k', q⟩ := e
    rw [mapEmplace] at h
    split at h
    · exact List.mem_cons.mp h
    split at h
    · rcases List.mem_cons.mp h with rfl | h
      · exact .inr List.mem_cons_self
      · exact (ih h).imp_right (List.mem_cons_of_mem k')
    · exact .inr h

/-- Inserting a segment keeps the keys sorted. -/
theorem mapEmplace_keysSorted (beg : Int) (p : Packet) {m : SegMap Int} (h : KeysSorted m) :
    KeysSorted (mapEmplace beg p m) := by
  induction m with
  | nil => exact List.pairwise_singleton _ _
  | cons e rest ih =>
    obtain ⟨k, q⟩ := e
    obtain ⟨hk, hrest⟩ := List.pairwise_cons.mp h
    rw [mapEmplace]
    split
    · rename_i hlt
      have hbeg : beg < k := by simpa using hlt
      refine List.pairwise_cons.mpr ⟨fun k' hk' => ?_, h⟩
      rcases List.mem_cons.mp hk' with rfl | hk'
      · exact hbeg
      · exact lt_trans hbeg (hk k' hk')
    split
    · rename_i hlt
      have hbeg : k < beg := by simpa using hlt
      refine List.pairwise_cons.mpr ⟨fun k' hk' => ?_, ih hrest⟩
      rcases mem_mapKeys_mapEmplace hk' with rfl | hk'
      · exact hbeg
      · exact hk k' hk'
    · exact h

/-- The second loop only takes keys away. -/
theorem secondLoop_keys :
    ∀ (rest : SegMap Int) (seg : Seg UInt8) (m : SegMap Int), secondLoop seg rest = .ok m →
      (mapKeys m).Sublist (mapKeys (seg :: rest)) := by
  intro rest
  induction rest with
  | nil =>
    intro seg m h
    cases h
    exact List.Sublist.refl _
  | cons next rest ih =>
    obtain ⟨beg, p⟩ := next
    rintro ⟨segBeg, segPkt⟩ m h
    rw [secondLoop_cons] at h
    cases hcase : secondCase segBeg (advance segBeg segPkt.length) beg (advance beg p.length) with
    | append =>
      rw [hcase] at h
      cases htrim : trimFront p (distance (advance segBeg segPkt.length) beg) with
      | error e => simp only [htrim, bind, Except.bind, reduceCtorEq] at h
      | ok tail =>
        simp only [htrim, bind, Except.bind] at h
        exact (ih _ m h).trans (List.Sublist.cons_cons _ (List.sublist_cons_self _ _))
    | inside =>
      rw [hcase] at h
      exact (ih _ m h).trans (List.Sublist.cons_cons _ (List.sublist_cons_self _ _))
    | apart =>
      rw [hcase] at h
      cases hrest : secondLoop (beg, p) rest with
      | error e => simp only [hrest, Except.map, reduceCtorEq] at h
      | ok m' =>
        simp only [hrest, Except.map] at h
        cases h
        exact List.Sublist.cons_cons _ (ih _ m' hrest)
    | abort =>
      rw [hcase] at h
      cases h

/-- Merging what is adjacent keeps the keys sorted. -/
theorem mergeAdjacent_keysSorted {m m' : SegMap Int} (hm : KeysSorted m)
    (h : mergeAdjacent m = .ok m') : KeysSorted m' := by
  cases m with
  | nil =>
    cases h
    exact hm
  | cons seg rest => exact hm.sublist (secondLoop_keys rest seg m' h)

/-- A `merge` call keeps the keys in order. -/
theorem merge_keysSorted {m m' : SegMap Int} {beg : Int} {p : Packet} (hm : KeysSorted m)
    (h : merge m beg p = .ok m') : KeysSorted m' := by
  cases hfirst : firstLoop beg p m with
  | error e => simp only [merge, hfirst, bind, Except.bind, reduceCtorEq] at h
  | ok r =>
    have hkeys := firstLoop_keys beg p m r hfirst
    simp only [merge, hfirst, bind, Except.bind] at h
    cases r with
    | covered =>
      cases h
      exact hm
    | insert m₁ p₁ =>
      exact mergeAdjacent_keysSorted (mapEmplace_keysSorted beg p₁ (hm.sublist hkeys)) h
    | extended m₁ => exact mergeAdjacent_keysSorted (hm.sublist hkeys) h

section
variable (base : BitVec 32) (lo : Int)

/-! ### The window is kept -/

/-- The joined segment ends where one of the two ends. -/
theorem joined_inWindow {segBeg beg : Int} {segPkt p tail : Packet}
    (hseg : InWindow lo (segBeg, segPkt)) (hnext : InWindow lo (beg, p))
    (htrim : trimFront p (distance (advance segBeg segPkt.length) beg) = .ok tail) :
    InWindow lo (segBeg, segPkt ++ tail) := by
  have hlen := length_of_trimFront htrim
  simp only [distance_int, advance_int] at hlen
  simp only [InWindow, Seg.stop_mk, List.length_append] at hseg hnext ⊢
  omega

/-- The second loop stays in the window. -/
theorem secondLoop_inWindow :
    ∀ (rest : SegMap Int) (seg : Seg UInt8) (m : SegMap Int), (∀ s ∈ seg :: rest, InWindow lo s) →
      secondLoop seg rest = .ok m → ∀ s ∈ m, InWindow lo s := by
  intro rest
  induction rest with
  | nil =>
    intro seg m hm h
    cases h
    exact hm
  | cons next rest ih =>
    obtain ⟨beg, p⟩ := next
    rintro ⟨segBeg, segPkt⟩ m hm h
    have hseg := hm (segBeg, segPkt) (by simp)
    have hnext := hm (beg, p) (by simp)
    have hrest : ∀ s ∈ rest, InWindow lo s := fun s hs => hm s (by simp [hs])
    rw [secondLoop_cons] at h
    cases hcase : secondCase segBeg (advance segBeg segPkt.length) beg (advance beg p.length) with
    | append =>
      rw [hcase] at h
      cases htrim : trimFront p (distance (advance segBeg segPkt.length) beg) with
      | error e => simp only [htrim, bind, Except.bind, reduceCtorEq] at h
      | ok tail =>
        simp only [htrim, bind, Except.bind] at h
        refine ih _ m (fun s hs => ?_) h
        rcases List.mem_cons.mp hs with rfl | hs
        · exact joined_inWindow lo hseg hnext htrim
        · exact hrest s hs
    | inside =>
      rw [hcase] at h
      refine ih _ m (fun s hs => ?_) h
      rcases List.mem_cons.mp hs with rfl | hs
      · exact hseg
      · exact hrest s hs
    | apart =>
      rw [hcase] at h
      cases hloop : secondLoop (beg, p) rest with
      | error e => simp only [hloop, Except.map, reduceCtorEq] at h
      | ok m' =>
        simp only [hloop, Except.map] at h
        cases h
        intro s hs
        rcases List.mem_cons.mp hs with rfl | hs
        · exact hseg
        · exact ih _ m' (fun s hs => hm s (List.mem_cons_of_mem _ hs)) hloop s hs
    | abort =>
      rw [hcase] at h
      cases h

/-- Merging what is adjacent stays in the window. -/
theorem mergeAdjacent_inWindow {m m' : SegMap Int} (hm : ∀ s ∈ m, InWindow lo s)
    (h : mergeAdjacent m = .ok m') : ∀ s ∈ m', InWindow lo s := by
  cases m with
  | nil =>
    cases h
    exact hm
  | cons seg rest => exact secondLoop_inWindow lo rest seg m' hm h

/-- A `merge` call of a fragment in the window keeps the map in the window. -/
theorem merge_inWindow {m m' : SegMap Int} {beg : Int} {p : Packet}
    (hm : ∀ s ∈ m, InWindow lo s) (hbeg : InWindow lo (beg, p)) (h : merge m beg p = .ok m') :
    ∀ s ∈ m', InWindow lo s := by
  have hin := (firstLoop_wrap 0 lo beg p hbeg m hm).2
  cases hfirst : firstLoop beg p m with
  | error e => simp only [merge, hfirst, bind, Except.bind, reduceCtorEq] at h
  | ok r =>
    have hpost := hin r hfirst
    simp only [merge, hfirst, bind, Except.bind] at h
    cases r with
    | covered =>
      cases h
      exact hm
    | insert m₁ p₁ =>
      exact mergeAdjacent_inWindow lo (mapEmplace_wrap 0 lo beg p₁ hpost.2 m₁ hpost.1).2 h
    | extended m₁ => exact mergeAdjacent_inWindow lo hpost h

/-! ### The same cases -/

/-- In a window the cases of the first loop are those of the integers. -/
theorem firstCase_wrap {beg segBeg : Int} {p segPkt : Packet} (hbeg : InWindow lo (beg, p))
    (hseg : InWindow lo (segBeg, segPkt)) :
    firstCase (wrap base beg) (advance (wrap base beg) p.length)
        (wrap base segBeg) (advance (wrap base segBeg) segPkt.length)
      = firstCase beg (advance beg p.length) segBeg (advance segBeg segPkt.length) := by
  have hops := offsets_wrap base lo (b := segBeg) (c := beg) hseg hbeg
  have h00 := hops segBeg (by simp) beg (by simp)
  have h01 := hops segBeg (by simp) (beg + p.length) (by simp)
  have h10 := hops (segBeg + segPkt.length) (by simp) beg (by simp)
  have h11 := hops (segBeg + segPkt.length) (by simp) (beg + p.length) (by simp)
  simp only [firstCase, advance_wrap, h00, h01, h10, h11, lt_int, le_int, advance_int]

/-- In a window the cases of the second loop are those of the integers. -/
theorem secondCase_wrap {segBeg beg : Int} {segPkt p : Packet}
    (hseg : InWindow lo (segBeg, segPkt)) (hbeg : InWindow lo (beg, p)) :
    secondCase (wrap base segBeg) (advance (wrap base segBeg) segPkt.length)
        (wrap base beg) (advance (wrap base beg) p.length)
      = secondCase segBeg (advance segBeg segPkt.length) beg (advance beg p.length) := by
  have hops := offsets_wrap base lo (b := segBeg) (c := beg) hseg hbeg
  have h00 := hops segBeg (by simp) beg (by simp)
  have h10 := hops (segBeg + segPkt.length) (by simp) beg (by simp)
  have h11 := hops (segBeg + segPkt.length) (by simp) (beg + p.length) (by simp)
  simp only [secondCase, advance_wrap, h00, h10, h11, lt_int, le_int, advance_int]

/-- In a window all the rounds of the first loop go as over the integers. -/
theorem firstCases_wrap (beg : Int) (p : Packet) (hbeg : InWindow lo (beg, p)) :
    ∀ m : SegMap Int, (∀ s ∈ m, InWindow lo s) →
      firstCases (wrap base beg) p (wrapMap base m) = firstCases beg p m := by
  intro m
  induction m with
  | nil => exact fun _ => rfl
  | cons seg rest ih =>
    obtain ⟨segBeg, segPkt⟩ := seg
    intro hm
    have hseg := hm (segBeg, segPkt) (by simp)
    simp only [wrapMap_cons, firstCases, firstCase_wrap base lo hbeg hseg,
      ih fun s hs => hm s (by simp [hs])]

/-- In a window all the rounds of the second loop go as over the integers. -/
theorem secondCases_wrap :
    ∀ (rest : SegMap Int) (seg : Seg UInt8), (∀ s ∈ seg :: rest, InWindow lo s) →
      secondCases (wrap base seg.1, seg.2) (wrapMap base rest) = secondCases seg rest := by
  intro rest
  induction rest with
  | nil => exact fun _ _ => rfl
  | cons next rest ih =>
    obtain ⟨beg, p⟩ := next
    rintro ⟨segBeg, segPkt⟩ hm
    have hseg := hm (segBeg, segPkt) (by simp)
    have hnext := hm (beg, p) (by simp)
    have hrest : ∀ s ∈ rest, InWindow lo s := fun s hs => hm s (by simp [hs])
    have htrims : distance (advance (wrap base segBeg) segPkt.length) (wrap base beg)
        = distance (advance segBeg segPkt.length) beg := by
      have hops := offsets_wrap base lo (b := segBeg) (c := beg) hseg hnext
      have h10 := hops (segBeg + segPkt.length) (by simp) beg (by simp)
      simp only [advance_wrap, h10, distance_int, advance_int]
    simp only [wrapMap_cons, secondCases, secondCase_wrap base lo hseg hnext, htrims]
    cases secondCase segBeg (advance segBeg segPkt.length) beg (advance beg p.length) with
    | append =>
      cases htrim : trimFront p (distance (advance segBeg segPkt.length) beg) with
      | error e => rfl
      | ok tail =>
        refine congrArg (SecondCase.append :: ·) (ih (segBeg, segPkt ++ tail) fun s hs => ?_)
        rcases List.mem_cons.mp hs with rfl | hs
        · exact joined_inWindow lo hseg hnext htrim
        · exact hrest s hs
    | inside =>
      refine congrArg (SecondCase.inside :: ·) (ih (segBeg, segPkt) fun s hs => ?_)
      rcases List.mem_cons.mp hs with rfl | hs
      · exact hseg
      · exact hrest s hs
    | apart =>
      exact congrArg (SecondCase.apart :: ·)
        (ih (beg, p) fun s hs => hm s (List.mem_cons_of_mem _ hs))
    | abort => rfl

/-- In a window the merging of what is adjacent goes as over the integers. -/
theorem adjacentCases_wrap (m : SegMap Int) (hm : ∀ s ∈ m, InWindow lo s) :
    adjacentCases (wrapMap base m) = adjacentCases m := by
  cases m with
  | nil => rfl
  | cons seg rest => exact secondCases_wrap base lo rest seg hm

/-- Both loops of a `merge` call in the window take the same branches in both runs. -/
theorem mergeCases_wrap (m : SegMap Int) (beg : Int) (p : Packet) (hm : ∀ s ∈ m, InWindow lo s)
    (hbeg : InWindow lo (beg, p)) :
    mergeCases (wrapMap base m) (wrap base beg) p = mergeCases m beg p := by
  obtain ⟨hfirst, hin⟩ := firstLoop_wrap base lo beg p hbeg m hm
  simp only [mergeCases, firstCases_wrap base lo beg p hbeg m hm, hfirst, Prod.mk.injEq, true_and]
  cases hr : firstLoop beg p m with
  | error e => rfl
  | ok r =>
    have hpost := hin r hr
    cases r with
    | covered => rfl
    | insert m' p' =>
      obtain ⟨hemp, hwin⟩ := mapEmplace_wrap base lo beg p' hpost.2 m' hpost.1
      show adjacentCases (mapEmplace (wrap base beg) p' (wrapMap base m')) = _
      rw [hemp]
      exact adjacentCases_wrap base lo _ hwin
    | extended m' => exact adjacentCases_wrap base lo m' hpost

/-! ### Runs -/

/-- `operator<` orders the keys of the map and the new key as the integers are ordered, and the
map is in this order. -/
def KeysOrdered (m : SegMap Int) (beg : Int) : Prop :=
  (∀ k ∈ beg :: mapKeys m, ∀ k' ∈ beg :: mapKeys m,
    lt (wrap base k) (wrap base k') = decide (k < k')) ∧
  (wrapMap base m).Pairwise fun e e' => lt e.1 e'.1 = true

/-- In a window sorted keys are ordered by the comparison of the source. -/
theorem keysOrdered_of_inWindow {m : SegMap Int} {beg : Int} {p : Packet}
    (hm : ∀ s ∈ m, InWindow lo s) (hbeg : InWindow lo (beg, p)) (hs : KeysSorted m) :
    KeysOrdered base m beg := by
  have hkey : ∀ k ∈ beg :: mapKeys m, lo ≤ k ∧ k < lo + 2 ^ 31 := by
    have hstart : ∀ s : Seg UInt8, InWindow lo s → lo ≤ s.1 ∧ s.1 < lo + 2 ^ 31 := by
      rintro ⟨k, q⟩ h
      simp only [InWindow, Seg.stop_mk] at h
      exact ⟨h.1, by omega⟩
    intro k hk
    rcases List.mem_cons.mp hk with rfl | hk
    · exact hstart _ hbeg
    · obtain ⟨s, hs, rfl⟩ := List.mem_map.mp hk
      exact hstart s (hm s hs)
  have hlt : ∀ k ∈ beg :: mapKeys m, ∀ k' ∈ beg :: mapKeys m,
      lt (wrap base k) (wrap base k') = decide (k < k') := by
    intro k hk k' hk'
    have h := hkey k hk
    have h' := hkey k' hk'
    exact lt_wrap base k k' (by omega) (by omega)
  refine ⟨hlt, List.pairwise_map.mpr ?_⟩
  refine (List.pairwise_map.mp hs).imp_of_mem fun {e e'} he he' hee => ?_
  have hmem : ∀ e ∈ m, e.1 ∈ beg :: mapKeys m := fun e he =>
    List.mem_cons_of_mem _ (List.mem_map_of_mem he)
  simpa [hlt e.1 (hmem e he) e'.1 (hmem e' he')] using hee

/-- The invariant of a run in the window. -/
structure RunInWindow (m : SegMap Int) : Prop where
  window : ∀ s ∈ m, InWindow lo s
  sorted : KeysSorted m

/-- A merge keeps the run in the window. -/
theorem merge_runInWindow {m m' : SegMap Int} {c : Seg UInt8} (h : RunInWindow lo m)
    (hc : InWindow lo c) (hmerge : merge m c.1 c.2 = .ok m') : RunInWindow lo m' where
  window := merge_inWindow lo h.window hc hmerge
  sorted := merge_keysSorted h.sorted hmerge

/-- The runs of the two mergers from related maps. -/
theorem foldlM_merge_wrap :
    ∀ (calls : List (Seg UInt8)) (m : SegMap Int), RunInWindow lo m →
      (∀ c ∈ calls, InWindow lo c) →
      (wrapMap base calls).foldlM (fun map c => merge map c.1 c.2) (wrapMap base m)
          = (calls.foldlM (fun map c => merge map c.1 c.2) m).map (wrapMap base) ∧
        ∀ m', calls.foldlM (fun map c => merge map c.1 c.2) m = .ok m' → RunInWindow lo m' := by
  intro calls
  induction calls with
  | nil =>
    intro m hm _
    refine ⟨rfl, fun m' h => ?_⟩
    cases h
    exact hm
  | cons c calls ih =>
    intro m hm hcalls
    have hc := hcalls c List.mem_cons_self
    have hstep := merge_wrap base lo m c.1 c.2 hm.window hc
    rw [wrapMap_cons, List.foldlM_cons, List.foldlM_cons, hstep]
    cases hmerge : merge m c.1 c.2 with
    | error e => exact ⟨rfl, fun m' h => by cases h⟩
    | ok m₁ =>
      exact ih m₁ (merge_runInWindow lo hm hc hmerge) fun c hc =>
        hcalls c (List.mem_cons_of_mem _ hc)

end

/-- A run of `packet_merger` over `tcp_seq` on fragments of one window simulates the run over
integers. The maps are the same up to wrapping after the whole run and before every call `c` of
it, the call takes the same cases, and the keys that `std::map` compares are in the order of the
integers. -/
theorem mergeAll_wrap (base : BitVec 32) (lo : Int) (calls : List (Int × Packet))
    (h : ∀ c ∈ calls, InWindow lo c) :
    mergeAll (wrapMap base calls) = (mergeAll calls).map (wrapMap base) ∧
    ∀ pre c post m, calls = pre ++ c :: post → mergeAll pre = .ok m →
      mergeAll (wrapMap base pre) = .ok (wrapMap base m) ∧
      mergeCases (wrapMap base m) (wrap base c.1) c.2 = mergeCases m c.1 c.2 ∧
      merge (wrapMap base m) (wrap base c.1) c.2 = (merge m c.1 c.2).map (wrapMap base) ∧
      KeysOrdered base m c.1 := by
  have hempty : RunInWindow lo [] := ⟨by simp, List.Pairwise.nil⟩
  refine ⟨(foldlM_merge_wrap base lo calls [] hempty h).1, fun pre c post m hcalls hm => ?_⟩
  subst hcalls
  have hc : InWindow lo c := h c (by simp)
  obtain ⟨hwrap, hrun⟩ := foldlM_merge_wrap base lo pre [] hempty fun c hc => h c (by simp [hc])
  have hinv := hrun m hm
  refine ⟨?_, mergeCases_wrap base lo m c.1 c.2 hinv.window hc,
    merge_wrap base lo m c.1 c.2 hinv.window hc,
    keysOrdered_of_inWindow base lo hinv.window hc hinv.sorted⟩
  show (wrapMap base pre).foldlM (fun map c => merge map c.1 c.2) (wrapMap base []) = _
  rw [hwrap]
  show (mergeAll pre).map (wrapMap base) = _
  rw [hm]
  rfl

/-- Two fragments on both sides of the number `0`, merged into the segment between them. -/
theorem mergeAll_wrap_crossing :
    mergeAll (wrapMap 0xFFFFFFFE#32 [(0, [1]), (3, [4, 5]), (1, [2, 3])])
      = .ok [(⟨0xFFFFFFFE#32⟩, [1, 2, 3, 4, 5])] := by
  have h := (mergeAll_wrap 0xFFFFFFFE#32 0 [(0, [1]), (3, [4, 5]), (1, [2, 3])] (by
    simp [InWindow, Seg.stop])).1
  rw [h]
  rfl

end Netstar.Proofs.Net
