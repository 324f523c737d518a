import Netstar.Spec.Net.Tcp
import Netstar.Proofs.Net.PacketMerger

/-!
# `Netstar.Proofs.Net.TcpMerger`: `packet_merger` over wrapping sequence numbers

`wrap base x` is the sequence number of stream position `x`, for a stream whose position `0`
has the number `base`. The comparison of two wrapped numbers is the comparison of their
positions as long as these are less than `2^31` apart (`lt_wrap`). So `packet_merger` over
`tcp_seq` takes the same cases as `packet_merger` over integers when every offset it looks at
lies in one window of less than `2^31` positions. `merge_wrap` states this simulation for one
call: the wrapped map of the integer run is the map of the `tcp_seq` run.
-/

set_option autoImplicit false

namespace Netstar.Proofs.Net

open Netstar.Lib
open Netstar.Spec.Net

/-! ### Wrapped positions -/

/-- The sequence number of stream position `x`. -/
def wrap (base : BitVec 32) (x : Int) : TcpSeq := ⟨base + BitVec.ofInt 32 x⟩

/-- Adding to a wrapped number wraps the sum. -/
theorem add_wrap (base : BitVec 32) (x n : Int) : (wrap base x).add n = wrap base (x + n) := by
  simp only [wrap, TcpSeq.add, BitVec.ofInt_add, BitVec.add_assoc]

/-- The difference of two wrapped positions, before it is read as a signed number. -/
theorem raw_sub_wrap (base : BitVec 32) (x y : Int) :
    (wrap base x).raw - (wrap base y).raw = BitVec.ofInt 32 (x - y) := by
  have hx : BitVec.ofInt 32 x = BitVec.ofInt 32 (x - y) + BitVec.ofInt 32 y := by
    rw [← BitVec.ofInt_add]
    congr 1
    omega
  simp only [wrap, hx]
  bv_omega

/-- The signed difference of two wrapped positions that are not too far apart. -/
theorem sub_wrap (base : BitVec 32) (x y : Int) (h : -2 ^ 31 ≤ x - y) (h' : x - y < 2 ^ 31) :
    (wrap base x).sub (wrap base y) = x - y := by
  rw [TcpSeq.sub, raw_sub_wrap, BitVec.toInt_ofInt]
  exact Int.bmod_eq_of_le (by omega) (by omega)

/-- Within 2^31 the order of wrapped numbers is that of the integers. -/
theorem lt_wrap (base : BitVec 32) (x y : Int) (h : -2 ^ 31 ≤ x - y) (h' : x - y < 2 ^ 31) :
    (wrap base x).lt (wrap base y) = decide (x < y) := by
  rw [TcpSeq.lt, sub_wrap base x y h h']
  exact decide_eq_decide.mpr (by omega)

/-- Within 2^31 the order of wrapped numbers is that of the integers, with equality. -/
theorem le_wrap (base : BitVec 32) (x y : Int) (h : -2 ^ 31 ≤ y - x) (h' : y - x < 2 ^ 31) :
    (wrap base x).le (wrap base y) = decide (x ≤ y) := by
  rw [TcpSeq.le, lt_wrap base y x h h', ← decide_not]
  exact decide_eq_decide.mpr not_lt

/-! ### Windows -/

/-- The segment lies in the window of `2^31` positions from `lo` on, and so does the position
right after it. -/
def InWindow (lo : Int) (s : Seg UInt8) : Prop := lo ≤ s.1 ∧ s.stop < lo + 2 ^ 31

/-- The map of the `tcp_seq` run that stands for the map `m` of the integer run. -/
def wrapMap (base : BitVec 32) (m : SegMap Int) : SegMap TcpSeq :=
  m.map fun s => (wrap base s.1, s.2)

/-- An empty map stays empty. -/
@[simp] theorem wrapMap_nil (base : BitVec 32) : wrapMap base [] = [] := rfl

/-- The keys of a map are wrapped segment by segment. -/
@[simp] theorem wrapMap_cons (base : BitVec 32) (s : Seg UInt8) (m : SegMap Int) :
    wrapMap base (s :: m) = (wrap base s.1, s.2) :: wrapMap base m := rfl

/-- The end of the first loop of the `tcp_seq` run. -/
def wrapFirst (base : BitVec 32) : FirstLoop Int → FirstLoop TcpSeq
  | .covered => .covered
  | .insert m p => .insert (wrapMap base m) p
  | .extended m => .extended (wrapMap base m)

/-- What the first loop leaves behind stays in the window. -/
def FirstInWindow (lo beg : Int) : FirstLoop Int → Prop
  | .covered => True
  | .insert m p => (∀ s ∈ m, InWindow lo s) ∧ InWindow lo (beg, p)
  | .extended m => ∀ s ∈ m, InWindow lo s

/-- Trimming takes off as many bytes as asked for. -/
theorem length_of_trimFront {p q : Packet} {k : Int} (h : trimFront p k = .ok q) :
    (q.length : Int) = p.length - k := by
  unfold trimFront at h
  split at h
  · cases h
    simp only [List.length_drop]
    omega
  · cases h

section
variable (base : BitVec 32) (lo : Int)

/-- `emplace` in the window. -/
theorem mapEmplace_wrap (beg : Int) (p : Packet) (hbeg : InWindow lo (beg, p)) :
    ∀ m : SegMap Int, (∀ s ∈ m, InWindow lo s) →
      mapEmplace (wrap base beg) p (wrapMap base m) = wrapMap base (mapEmplace beg p m) ∧
        ∀ s ∈ mapEmplace beg p m, InWindow lo s := by
  intro m
  induction m with
  | nil =>
    intro _
    refine ⟨rfl, fun s hs => ?_⟩
    rw [List.mem_singleton.mp hs]
    exact hbeg
  | cons e rest ih =>
    obtain ⟨k, q⟩ := e
    intro hm
    obtain ⟨hih, hin⟩ := ih fun s hs => hm s (by simp [hs])
    have hk := hm (k, q) (by simp)
    simp only [InWindow, Seg.stop_mk] at hk hbeg
    have h1 : MergeOffset.lt (wrap base beg) (wrap base k) = decide (beg < k) :=
      lt_wrap base beg k (by omega) (by omega)
    have h2 : MergeOffset.lt (wrap base k) (wrap base beg) = decide (k < beg) :=
      lt_wrap base k beg (by omega) (by omega)
    simp only [wrapMap_cons, mapEmplace, h1, h2, lt_int, decide_eq_true_eq]
    split
    · refine ⟨rfl, fun s hs => ?_⟩
      rcases List.mem_cons.mp hs with rfl | hs
      · exact hbeg
      · exact hm s hs
    · split
      · refine ⟨by rw [wrapMap_cons, hih], fun s hs => ?_⟩
        rcases List.mem_cons.mp hs with rfl | hs
        · exact hm _ (by simp)
        · exact hin s hs
      · exact ⟨rfl, hm⟩

/-- The comparisons and differences that the loops make on two segments of the window. -/
theorem offsets_wrap {b c : Int} {n k : Nat} (hb : lo ≤ b ∧ b + n < lo + 2 ^ 31)
    (hc : lo ≤ c ∧ c + k < lo + 2 ^ 31) :
    (∀ x ∈ [b, b + n], ∀ y ∈ [c, c + k],
      MergeOffset.lt (wrap base x) (wrap base y) = decide (x < y) ∧
      MergeOffset.lt (wrap base y) (wrap base x) = decide (y < x) ∧
      MergeOffset.le (wrap base x) (wrap base y) = decide (x ≤ y) ∧
      MergeOffset.le (wrap base y) (wrap base x) = decide (y ≤ x) ∧
      MergeOffset.distance (wrap base x) (wrap base y) = x - y ∧
      MergeOffset.distance (wrap base y) (wrap base x) = y - x) := by
  intro x hx y hy
  have hxlo : lo ≤ x ∧ x < lo + 2 ^ 31 := by
    simp only [List.mem_cons, List.not_mem_nil, or_false] at hx
    omega
  have hylo : lo ≤ y ∧ y < lo + 2 ^ 31 := by
    simp only [List.mem_cons, List.not_mem_nil, or_false] at hy
    omega
  exact ⟨lt_wrap base x y (by omega) (by omega), lt_wrap base y x (by omega) (by omega),
    le_wrap base x y (by omega) (by omega), le_wrap base y x (by omega) (by omega),
    sub_wrap base x y (by omega) (by omega), sub_wrap base y x (by omega) (by omega)⟩

/-- A wrapped offset advances as the offset does. -/
theorem advance_wrap (x : Int) (n : Nat) :
    MergeOffset.advance (wrap base x) n = wrap base (x + n) := add_wrap base x n

/-- The first loop in the window: same cases, same trims. -/
theorem firstLoop_wrap (beg : Int) (p : Packet) (hbeg : InWindow lo (beg, p)) :
    ∀ m : SegMap Int, (∀ s ∈ m, InWindow lo s) →
      firstLoop (wrap base beg) p (wrapMap base m)
        = (firstLoop beg p m).map (wrapFirst base) ∧
      ∀ r, firstLoop beg p m = .ok r → FirstInWindow lo beg r := by
  intro m
  induction m with
  | nil =>
    intro _
    refine ⟨rfl, fun r hr => ?_⟩
    cases hr
    exact ⟨by simp, hbeg⟩
  | cons seg rest ih =>
    obtain ⟨segBeg, segPkt⟩ := seg
    intro hm
    have hrest : ∀ s ∈ rest, InWindow lo s := fun s hs => hm s (by simp [hs])
    obtain ⟨hih, hin⟩ := ih hrest
    have hseg := hm (segBeg, segPkt) (by simp)
    -- The loop compares the two ends of both ranges. All four are in the window, where the order of
    -- the sequence numbers is the order of the positions.
    have hops := offsets_wrap base lo (b := segBeg) (c := beg) hseg hbeg
    have h00 := hops segBeg (by simp) beg (by simp)
    have h01 := hops segBeg (by simp) (beg + p.length) (by simp)
    have h10 := hops (segBeg + segPkt.length) (by simp) beg (by simp)
    have h11 := hops (segBeg + segPkt.length) (by simp) (beg + p.length) (by simp)
    simp only [wrapMap_cons, firstLoop, advance_wrap, h00, h01, h10, h11, lt_int, le_int,
      advance_int, distance_int]
    simp only [InWindow, Seg.stop_mk] at hseg hbeg
    split
    · exact ⟨rfl, fun r hr => by cases hr; trivial⟩
    split
    · refine ⟨rfl, fun r hr => ?_⟩
      cases hr
      exact ⟨hrest, hbeg⟩
    split
    · cases htrim : trimFront segPkt (beg + p.length - segBeg) with
      | error e => exact ⟨rfl, fun r hr => by cases hr⟩
      | ok tail =>
        have hlen := length_of_trimFront htrim
        refine ⟨rfl, fun r hr => ?_⟩
        cases hr
        refine ⟨hrest, hbeg.1, ?_⟩
        simp only [Seg.stop_mk, List.length_append]
        omega
    split
    · cases htrim : trimFront p (segBeg + segPkt.length - beg) with
      | error e => exact ⟨rfl, fun r hr => by cases hr⟩
      | ok tail =>
        have hlen := length_of_trimFront htrim
        refine ⟨rfl, fun r hr => ?_⟩
        cases hr
        intro s hs
        rcases List.mem_cons.mp hs with rfl | hs
        · refine ⟨hseg.1, ?_⟩
          simp only [Seg.stop_mk, List.length_append]
          omega
        · exact hrest s hs
    · -- The fragment does not meet this segment in either run.
      rw [hih]
      cases hr : firstLoop beg p rest with
      | error e => exact ⟨rfl, fun r hr => by cases hr⟩
      | ok r =>
        have hpost := hin r hr
        refine ⟨by cases r <;> rfl, fun r' hr' => ?_⟩
        cases hr'
        cases r with
        | covered => trivial
        | insert m' p' =>
          refine ⟨fun s hs => ?_, hpost.2⟩
          rcases List.mem_cons.mp hs with rfl | hs
          · exact hseg
          · exact hpost.1 s hs
        | extended m' =>
          intro s hs
          rcases List.mem_cons.mp hs with rfl | hs
          · exact hseg
          · exact hpost s hs

/-- The second loop in the window. -/
theorem secondLoop_wrap :
    ∀ (rest : SegMap Int) (seg : Seg UInt8), (∀ s ∈ seg :: rest, InWindow lo s) →
      secondLoop (wrap base seg.1, seg.2) (wrapMap base rest)
        = (secondLoop seg rest).map (wrapMap base) := by
  intro rest
  induction rest with
  | nil => exact fun _ _ => rfl
  | cons next rest ih =>
    obtain ⟨beg, p⟩ := next
    rintro ⟨segBeg, segPkt⟩ hm
    have hrest : ∀ s ∈ rest, InWindow lo s := fun s hs => hm s (by simp [hs])
    have hseg := hm (segBeg, segPkt) (by simp)
    have hnext := hm (beg, p) (by simp)
    have hops := offsets_wrap base lo (b := segBeg) (c := beg) hseg hnext
    have h00 := hops segBeg (by simp) beg (by simp)
    have h10 := hops (segBeg + segPkt.length) (by simp) beg (by simp)
    have h11 := hops (segBeg + segPkt.length) (by simp) (beg + p.length) (by simp)
    simp only [wrapMap_cons, secondLoop, advance_wrap, h00, h10, h11, lt_int, le_int,
      advance_int, distance_int]
    split
    · cases htrim : trimFront p (segBeg + segPkt.length - beg) with
      | error e => rfl
      | ok tail =>
        have hlen := length_of_trimFront htrim
        refine ih (segBeg, segPkt ++ tail) fun s hs => ?_
        rcases List.mem_cons.mp hs with rfl | hs
        · simp only [InWindow, Seg.stop_mk, List.length_append] at hseg hnext ⊢
          omega
        · exact hrest s hs
    split
    · refine ih (segBeg, segPkt) fun s hs => ?_
      rcases List.mem_cons.mp hs with rfl | hs
      · exact hseg
      · exact hrest s hs
    split
    · rw [ih (beg, p) fun s hs => hm s (by simp [List.mem_cons.mp hs])]
      cases secondLoop (beg, p) rest <;> rfl
    · rfl

/-- In a window the merging of what is adjacent commutes with the wrapping. -/
theorem mergeAdjacent_wrap (m : SegMap Int) (hm : ∀ s ∈ m, InWindow lo s) :
    mergeAdjacent (wrapMap base m) = (mergeAdjacent m).map (wrapMap base) := by
  cases m with
  | nil => rfl
  | cons seg rest => exact secondLoop_wrap base lo rest seg hm

/-- One `merge` call in the window. The `tcp_seq` run takes the same cases as the integer run
and ends in the same map up to wrapping. -/
theorem merge_wrap (m : SegMap Int) (beg : Int) (p : Packet) (hm : ∀ s ∈ m, InWindow lo s)
    (hbeg : InWindow lo (beg, p)) :
    merge (wrapMap base m) (wrap base beg) p = (merge m beg p).map (wrapMap base) := by
  obtain ⟨hfirst, hin⟩ := firstLoop_wrap base lo beg p hbeg m hm
  simp only [merge, hfirst]
  cases hr : firstLoop beg p m with
  | error e => rfl
  | ok r =>
    have hpost := hin r hr
    cases r with
    | covered => rfl
    | insert m' p' =>
      obtain ⟨hemp, hwin⟩ := mapEmplace_wrap base lo beg p' hpost.2 m' hpost.1
      show mergeAdjacent (mapEmplace (wrap base beg) p' (wrapMap base m')) = _
      rw [hemp]
      exact mergeAdjacent_wrap base lo _ hwin
    | extended m' => exact mergeAdjacent_wrap base lo m' hpost

end

end Netstar.Proofs.Net
