import Netstar.Lib.Result
import Netstar.Lib.TableTotal
import Netstar.Proofs.Net.Forward

/-!
# `Netstar.Proofs.Net.FragMemory`: the bookkeeping of the IP reassembly

The reassembly keeps three structures in step: the entries, the list of their ages, and the memory
that they use. `Tracks` is the invariant. Every way in which an entry changes or leaves keeps it, so
it holds in every reachable state.

The memory is counted in 32 bits. `frag_limit_mem` runs before each fragment, and one fragment adds
little, so the sum never wraps around. The size of an entry can also shrink, when segments join.
-/

set_option autoImplicit false

namespace Netstar.Proofs.Net

open Netstar.Lib (bind_eq_ok total total_insert total_eq_add_erase le_total
  erase_of_lookup_eq_none)
open Netstar.Spec.Net

/-! ### The memory of a merge -/

section Merge
variable {α : Type} [MergeOffset α]

/-- The memory of segments, when a packet object takes `c` bytes. -/
def segMemory (c : Nat) (m : SegMap α) : Nat := (m.map fun s => s.2.length + c).sum

omit [MergeOffset α] in
/-- The memory of the segments, one by one. -/
@[simp] theorem segMemory_cons (c : Nat) (s : α × Packet) (m : SegMap α) :
    segMemory c (s :: m) = s.2.length + c + segMemory c m := rfl

/-- Trimming does not make a packet longer. -/
theorem length_le_of_trimFront {p q : Packet} {k : Int} (h : trimFront p k = .ok q) :
    q.length ≤ p.length := by
  unfold trimFront at h
  split at h
  · cases h
    rw [List.length_drop]
    exact Nat.sub_le _ _
  · cases h

/-- What the first loop leaves uses no more memory than before. -/
def FirstLoopFits (c n : Nat) : FirstLoop α → Prop
  | .covered => True
  | .insert m p => segMemory c m + p.length ≤ n
  | .extended m => segMemory c m ≤ n

/-- The first loop of the merger needs at most the memory of the map and of the new packet. -/
theorem firstLoop_fits (c : Nat) (beg : α) (p : Packet) (m : SegMap α) {r : FirstLoop α}
    (h : firstLoop beg p m = .ok r) : FirstLoopFits c (segMemory c m + p.length) r := by
  induction m generalizing r with
  | nil =>
    cases h
    exact Nat.le_refl _
  | cons s m ih =>
    unfold firstLoop at h
    dsimp only at h
    split at h
    · cases h
      trivial
    · split at h
      · cases h
        simp only [FirstLoopFits, segMemory_cons]
        omega
      · split at h
        · obtain ⟨tail, htail, hr⟩ := bind_eq_ok.mp h
          cases hr
          have := length_le_of_trimFront htail
          simp only [FirstLoopFits, segMemory_cons, List.length_append]
          omega
        · split at h
          · obtain ⟨tail, htail, hr⟩ := bind_eq_ok.mp h
            cases hr
            have := length_le_of_trimFront htail
            simp only [FirstLoopFits, segMemory_cons, List.length_append]
            omega
          · -- the loop goes on behind the segment
            cases hrest : firstLoop beg p m with
            | error e =>
              rw [hrest] at h
              cases h
            | ok r' =>
              rw [hrest] at h
              cases h
              have := ih hrest
              cases r' with
              | covered => trivial
              | insert m' p' =>
                simp only [FirstLoop.keep, FirstLoopFits, segMemory_cons] at this ⊢
                omega
              | extended m' =>
                simp only [FirstLoop.keep, FirstLoopFits, segMemory_cons] at this ⊢
                omega

/-- Inserting a segment needs at most the memory of the segment. -/
theorem mapEmplace_fits (c : Nat) (beg : α) (p : Packet) (m : SegMap α) :
    segMemory c (mapEmplace beg p m) ≤ segMemory c m + p.length + c := by
  induction m with
  | nil =>
    simp only [mapEmplace, segMemory_cons]
    omega
  | cons s m ih =>
    unfold mapEmplace
    split
    · simp only [segMemory_cons]
      omega
    · split
      · simp only [segMemory_cons]
        omega
      · simp only [segMemory_cons]
        omega

/-- The second loop of the merger needs no more memory. -/
theorem secondLoop_fits (c : Nat) (seg : α × Packet) (m : SegMap α) {m' : SegMap α}
    (h : secondLoop seg m = .ok m') : segMemory c m' ≤ segMemory c (seg :: m) := by
  induction m generalizing seg m' with
  | nil =>
    cases h
    exact Nat.le_refl _
  | cons s m ih =>
    unfold secondLoop at h
    dsimp only at h
    split at h
    · obtain ⟨tail, htail, hr⟩ := bind_eq_ok.mp h
      have hlen := length_le_of_trimFront htail
      have := ih _ hr
      simp only [segMemory_cons, List.length_append] at this ⊢
      omega
    · split at h
      · have := ih _ h
        simp only [segMemory_cons] at this ⊢
        omega
      · split at h
        · cases hrest : secondLoop s m with
          | error e =>
            rw [hrest] at h
            cases h
          | ok m'' =>
            rw [hrest] at h
            cases h
            have := ih _ hrest
            simp only [segMemory_cons] at this ⊢
            omega
        · cases h

/-- Merging what is adjacent needs no more memory. -/
theorem mergeAdjacent_fits (c : Nat) (m : SegMap α) {m' : SegMap α}
    (h : mergeAdjacent m = .ok m') : segMemory c m' ≤ segMemory c m := by
  cases m with
  | nil =>
    cases h
    exact Nat.le_refl _
  | cons s m => exact secondLoop_fits c s m h

/-- A merge adds at most one packet. -/
theorem merge_fits (c : Nat) (m : SegMap α) (offset : α) (p : Packet) {m' : SegMap α}
    (h : merge m offset p = .ok m') : segMemory c m' ≤ segMemory c m + p.length + c := by
  obtain ⟨r, hr, hm'⟩ := bind_eq_ok.mp h
  have hfits := firstLoop_fits c offset p m hr
  cases r with
  | covered =>
    cases hm'
    omega
  | insert m₁ p₁ =>
    have hadjacent := mergeAdjacent_fits c _ hm'
    have hemplace := mapEmplace_fits c offset p₁ m₁
    simp only [FirstLoopFits] at hfits
    omega
  | extended m₁ =>
    have hadjacent := mergeAdjacent_fits c _ hm'
    simp only [FirstLoopFits] at hfits
    omega

end Merge

/-! ### The invariant -/

/-- `rx_time` of an entry. -/
def rxTimeOf (s : Ipv4) (k : FragId) : Nat := ((s.frags.lookup k).map (·.rxTime)).getD 0

/-- The memory that an entry uses. -/
def fragMemory (cfg : IpConfig) (header : Packet) (data : SegMap Int) : Nat :=
  header.length + cfg.implSize + segMemory cfg.implSize data

/-- The memory of a fragment is counted in 32 bits. -/
theorem memoryOf_eq (cfg : IpConfig) (header : Packet) (data : SegMap Int) :
    Frag.memoryOf cfg header data = fragMemory cfg header data % 2 ^ 32 := by
  have hfold : ∀ (data : SegMap Int) (n : Nat),
      data.foldl (fun size x => addU32 size (Frag.memory cfg x.2)) (n % 2 ^ 32) =
        (n + segMemory cfg.implSize data) % 2 ^ 32 := by
    intro data
    induction data with
    | nil => exact fun n => rfl
    | cons s data ih =>
      intro n
      have hstep : addU32 (n % 2 ^ 32) (Frag.memory cfg s.2) =
          (n + (s.2.length + cfg.implSize)) % 2 ^ 32 := (Nat.add_mod _ _ _).symm
      rw [List.foldl_cons, hstep, ih, segMemory_cons, Nat.add_assoc]
  exact hfold data _

/-- The entries, the list `age` of their keys and `_frag_mem` are in step. The entries were created
at `t` or before. -/
structure Tracks (cfg : IpConfig) (t : Nat) (s : Ipv4) (age : List FragId) : Prop where
  mem : s.fragMem = total (·.memSize) s.frags
  small : s.fragMem < 2 ^ 32
  nodup : age.Nodup
  keys : ∀ k, k ∈ age ↔ k ∈ s.frags
  order : age.Pairwise fun k k' => rxTimeOf s k ≤ rxTimeOf s k'
  entry : ∀ k f, s.frags.lookup k = some f →
    f.memSize = fragMemory cfg f.header f.data ∧ f.rxTime ≤ t

/-- The invariant of the reassembly. -/
structure FragInv (cfg : IpConfig) (t : Nat) (s : Ipv4) : Prop
    extends Tracks cfg t s s.fragsAge where
  timer : ∀ k ∈ s.frags, s.fragTimer ≠ none

variable {cfg : IpConfig} {t : Nat} {s : Ipv4} {k : FragId} {age : List FragId}

/-- Subtracting what is there does not wrap. -/
theorem subU32_eq {a b : Nat} (ha : a < 2 ^ 32) (hb : b ≤ a) : subU32 a b = a - b := by
  unfold subU32
  omega

/-- A key is in the map when there is a fragment for it. -/
theorem mem_frags_iff : k ∈ s.frags ↔ ∃ f, s.frags.lookup k = some f := by
  rw [← AList.lookup_isSome, Option.isSome_iff_exists]

/-- The size of a fragment is the one that it stores. -/
theorem memSizeOf_eq {f : Frag} (h : s.frags.lookup k = some f) : s.memSizeOf k = f.memSize := by
  rw [Ipv4.memSizeOf, h]
  rfl

/-- An entry leaves. -/
theorem Tracks.remove {f : Frag} (h : Tracks cfg t s age) (hf : s.frags.lookup k = some f) :
    Tracks cfg t (s.fragDrop k f.memSize) (age.filter (· ≠ k)) ∧
      (s.fragDrop k f.memSize).fragMem = s.fragMem - f.memSize ∧ f.memSize ≤ s.fragMem := by
  have htotal := total_eq_add_erase (w := fun f : Frag => f.memSize) hf
  have hmem := h.mem
  have hsmall := h.small
  have hfragMem : (s.fragDrop k f.memSize).fragMem = s.fragMem - f.memSize :=
    subU32_eq hsmall (by omega)
  have herase : (s.fragDrop k f.memSize).frags = s.frags.erase k := rfl
  have hlookup : ∀ k', k' ≠ k → (s.fragDrop k f.memSize).frags.lookup k' = s.frags.lookup k' :=
    fun k' hne => AList.lookup_erase_ne hne
  refine ⟨⟨?_, by omega, h.nodup.filter _, ?_, ?_, ?_⟩, hfragMem, by omega⟩
  · rw [hfragMem, herase]
    omega
  · intro k'
    rw [herase, AList.mem_erase, ← h.keys, List.mem_filter, and_comm, decide_eq_true_iff]
  · refine (h.order.sublist List.filter_sublist).imp_of_mem ?_
    intro a b ha hb hab
    have hne : ∀ x ∈ age.filter (· ≠ k), x ≠ k := by
      intro x hx
      simpa using (List.mem_filter.mp hx).2
    simp only [rxTimeOf, hlookup a (hne a ha), hlookup b (hne b hb)]
    exact hab
  · intro k' f' hf'
    by_cases hk : k' = k
    · subst hk
      rw [herase, AList.lookup_erase] at hf'
      cases hf'
    · rw [hlookup k' hk] at hf'
      exact h.entry k' f' hf'

/-- The oldest entry is dropped. -/
theorem Tracks.drop (h : Tracks cfg t s (k :: age)) :
    Tracks cfg t (s.fragDrop k (s.memSizeOf k)) age ∧
      (s.fragDrop k (s.memSizeOf k)).fragMem = s.fragMem - s.memSizeOf k ∧
      s.memSizeOf k ≤ s.fragMem := by
  obtain ⟨f, hf⟩ := mem_frags_iff.mp ((h.keys k).mp List.mem_cons_self)
  obtain ⟨hnot, _⟩ := List.nodup_cons.mp h.nodup
  have hfilter : (k :: age).filter (· ≠ k) = age := by
    rw [List.filter_cons_of_neg (by simp), List.filter_eq_self]
    intro x hx
    have hne : x ≠ k := by
      rintro rfl
      exact hnot hx
    simpa using hne
  have hremove := h.remove hf
  rw [hfilter] at hremove
  rw [memSizeOf_eq hf]
  exact hremove

/-- `r` is `s` without the first `n` entries of `age`. -/
structure Sheds (s r : Ipv4) (age : List FragId) (n : Nat) : Prop where
  rest : r.fragsAge = age.drop n
  lookup : ∀ k, r.frags.lookup k = if k ∈ age.take n then none else s.frags.lookup k
  timer : r.fragTimer = s.fragTimer

/-- Nothing is dropped. -/
theorem Sheds.none (s : Ipv4) (age : List FragId) : Sheds s { s with fragsAge := age } age 0 :=
  ⟨rfl, fun _ => rfl, rfl⟩

/-- Dropping the oldest fragment and then more drops one more. -/
theorem Sheds.cons {r : Ipv4} {n m : Nat} (h : Sheds (s.fragDrop k m) r age n) :
    Sheds s r (k :: age) (n + 1) := by
  refine ⟨h.rest, ?_, h.timer⟩
  intro k'
  rw [h.lookup k', List.take_succ_cons]
  by_cases hk : k' = k
  · subst hk
    have hnone : (s.fragDrop k' m).frags.lookup k' = Option.none := AList.lookup_erase _ _
    simp [hnone]
  · have hsame : (s.fragDrop k m).frags.lookup k' = s.frags.lookup k' := AList.lookup_erase_ne hk
    simp [hk, hsame]

/-- `_frags_age` is the list that the loops carry. -/
theorem Tracks.withAge (h : Tracks cfg t s age) : Tracks cfg t { s with fragsAge := age } age :=
  ⟨h.mem, h.small, h.nodup, h.keys, h.order, h.entry⟩

/-- Without fragments no memory is counted. -/
theorem Tracks.fragMem_eq_zero (h : Tracks cfg t s []) : s.fragMem = 0 := by
  have hempty : s.frags.entries = [] := by
    apply List.eq_nil_iff_forall_not_mem.mpr
    intro e he
    have hkey : e.1 ∈ s.frags := List.mem_map_of_mem he
    exact absurd ((h.keys e.1).mpr hkey) List.not_mem_nil
  rw [h.mem, total, hempty]
  rfl

/-- The loop of `frag_limit_mem` ends at the low threshold. -/
theorem fragLimitLoop_spec (age : List FragId) (drop : Nat) (s : Ipv4) (h : Tracks cfg t s age)
    (hdrop : drop = s.fragMem - fragLowThresh) :
    ∃ n, Sheds s (Ipv4.fragLimitLoop drop age s) age n ∧
      Tracks cfg t (Ipv4.fragLimitLoop drop age s) (age.drop n) ∧
      (Ipv4.fragLimitLoop drop age s).fragMem ≤ fragLowThresh := by
  induction age generalizing drop s with
  | nil =>
    have hzero : s.fragMem = 0 := h.fragMem_eq_zero
    exact ⟨0, .none s [], h.withAge, by simp [Ipv4.fragLimitLoop, hzero]⟩
  | cons k age ih =>
    unfold Ipv4.fragLimitLoop
    split
    · exact ⟨0, .none s _, h.withAge, by simp only; omega⟩
    · obtain ⟨htracks, hmem, hle⟩ := h.drop
      have hdrop' : drop - min drop (s.memSizeOf k) =
          (s.fragDrop k (s.memSizeOf k)).fragMem - fragLowThresh := by omega
      obtain ⟨n, hsheds, htracks', hlow⟩ := ih _ _ htracks hdrop'
      exact ⟨n + 1, hsheds.cons, htracks', hlow⟩

/-- The loop of `frag_timeout` drops the oldest entries. -/
theorem fragTimeoutLoop_spec (now : Nat) (age : List FragId) (s : Ipv4)
    (h : Tracks cfg t s age) :
    ∃ n, Sheds s (Ipv4.fragTimeoutLoop now age s) age n ∧
      Tracks cfg t (Ipv4.fragTimeoutLoop now age s) (age.drop n) := by
  induction age generalizing s with
  | nil => exact ⟨0, .none s [], h.withAge⟩
  | cons k age ih =>
    unfold Ipv4.fragTimeoutLoop
    dsimp only
    split
    · obtain ⟨n, hsheds, htracks⟩ := ih _ h.drop.1
      exact ⟨n + 1, hsheds.cons, htracks⟩
    · exact ⟨0, .none s _, h.withAge⟩

/-- `frag_limit_mem` drops the oldest entries, and goes down to the low threshold if it drops. -/
theorem fragLimitMem_spec (h : Tracks cfg t s s.fragsAge) :
    ∃ n, Sheds s s.fragLimitMem s.fragsAge n ∧
      Tracks cfg t s.fragLimitMem s.fragLimitMem.fragsAge ∧
      s.fragLimitMem.fragMem ≤ fragHighThresh ∧
      (0 < n → s.fragLimitMem.fragMem ≤ fragLowThresh) := by
  unfold Ipv4.fragLimitMem
  split
  · rename_i hhigh
    exact ⟨0, .none s _, h, hhigh, nofun⟩
  · obtain ⟨n, hsheds, htracks, hlow⟩ := fragLimitLoop_spec s.fragsAge _ s h rfl
    rw [← hsheds.rest] at htracks
    exact ⟨n, hsheds, htracks, Nat.le_trans hlow (by decide), fun _ => hlow⟩

/-! ### One fragment -/

/-- What `frag::merge` does to an entry. -/
theorem fragMerge_spec {frag frag' : Frag} {h : IpHdr} {offset : Nat} {p : Packet}
    (hmerge : frag.merge cfg h offset p = .ok frag') :
    h.hdrLen ≤ p.length ∧ merge frag.data offset (p.drop h.hdrLen) = .ok frag'.data ∧
      frag'.header = (if offset = 0 then p.take h.hdrLen else frag.header) ∧
      frag'.memSize = fragMemory cfg frag'.header frag'.data % 2 ^ 32 ∧
      frag'.rxTime = frag.rxTime ∧ frag'.lastFragReceived = frag.lastFragReceived := by
  obtain ⟨header, hheader, hrest⟩ := bind_eq_ok.mp hmerge
  obtain ⟨payload, hpayload, hrest⟩ := bind_eq_ok.mp hrest
  obtain ⟨data, hdata, hresult⟩ := bind_eq_ok.mp hrest
  cases hresult
  unfold Frag.trimPrefix at hpayload
  split at hpayload
  · rename_i hle
    cases hpayload
    refine ⟨hle, ?_, ?_, memoryOf_eq _ _ _, rfl, rfl⟩
    · cases hm : merge frag.data offset (p.drop h.hdrLen) with
      | error e =>
        rw [hm] at hdata
        cases hdata
      | ok data' =>
        rw [hm] at hdata
        cases hdata
        rfl
    · split at hheader
      · rename_i hzero
        rw [Frag.sharePrefix, if_pos hle] at hheader
        cases hheader
        rw [if_pos hzero]
      · rename_i hzero
        cases hheader
        rw [if_neg hzero]
  · cases hpayload

/-- How much an entry can grow. -/
theorem fragMerge_memory {frag frag' : Frag} {h : IpHdr} {offset : Nat} {p : Packet}
    (hmerge : frag.merge cfg h offset p = .ok frag') :
    fragMemory cfg frag'.header frag'.data ≤
      fragMemory cfg frag.header frag.data + 2 * p.length + cfg.implSize := by
  obtain ⟨hle, hdata, hheader, _⟩ := fragMerge_spec hmerge
  have hfits := merge_fits cfg.implSize _ _ _ hdata
  have hlen : frag'.header.length ≤ frag.header.length + p.length := by
    rw [hheader]
    split
    · rw [List.length_take]
      omega
    · omega
  rw [List.length_drop] at hfits
  unfold fragMemory
  omega

/-- `_frag_mem` after an entry has changed its size. -/
theorem addU32_subU32 {a old new : Nat} (hold : old ≤ a) (ha : a < 2 ^ 32) (hnew : new < 2 ^ 32)
    (hsum : a - old + new < 2 ^ 32) : addU32 a (subU32 new old) = a - old + new := by
  unfold addU32 subU32
  omega

/-- An entry takes a fragment. -/
theorem Tracks.update {f f' : Frag} (h : Tracks cfg t s age) (hf : s.frags.lookup k = some f)
    (hrx : f'.rxTime = f.rxTime) (hsize : f'.memSize = fragMemory cfg f'.header f'.data)
    (hsum : s.fragMem + f'.memSize < 2 ^ 32) (age' : List FragId) :
    Tracks cfg t ⟨s.frags.insert k f', age', addU32 s.fragMem (subU32 f'.memSize f.memSize),
      s.fragTimer⟩ age := by
  have htotal := total_eq_add_erase (w := fun f : Frag => f.memSize) hf
  have hmem := h.mem
  -- The unsigned sum loses the old size and takes the new one, without a wrap in the result.
  have hadd : addU32 s.fragMem (subU32 f'.memSize f.memSize) =
      s.fragMem - f.memSize + f'.memSize := addU32_subU32 (by omega) h.small (by omega) (by omega)
  have hlookup : ∀ k', k' ≠ k → (s.frags.insert k f').lookup k' = s.frags.lookup k' :=
    fun k' hne => AList.lookup_insert_ne hne
  refine ⟨?_, by simp only [hadd]; omega, h.nodup, ?_, ?_, ?_⟩
  · simp only [hadd, total_insert]
    omega
  · intro k'
    have hk : k ∈ s.frags := mem_frags_iff.mpr ⟨f, hf⟩
    rw [h.keys, AList.mem_insert]
    constructor
    · exact .inr
    · rintro (rfl | hk')
      · exact hk
      · exact hk'
  · refine h.order.imp ?_
    intro a b hab
    -- The time of arrival of an entry is that of its first fragment.
    have hrxOf : ∀ x, rxTimeOf ⟨s.frags.insert k f', age',
        addU32 s.fragMem (subU32 f'.memSize f.memSize), s.fragTimer⟩ x = rxTimeOf s x := by
      intro x
      by_cases hx : x = k
      · subst hx
        simp only [rxTimeOf, AList.lookup_insert, hf, Option.map_some, hrx]
      · simp only [rxTimeOf, hlookup x hx]
    rw [hrxOf, hrxOf]
    exact hab
  · intro k' g hg
    by_cases hk : k' = k
    · subst hk
      simp only [AList.lookup_insert, Option.some.injEq] at hg
      subst hg
      exact ⟨hsize, by rw [hrx]; exact (h.entry _ _ hf).2⟩
    · simp only [hlookup k' hk] at hg
      exact h.entry k' g hg

/-- A new entry is the youngest. -/
theorem Tracks.create {now : Nat} {f' : Frag} (h : Tracks cfg t s age) (hnow : t ≤ now)
    (hf : s.frags.lookup k = none) (hrx : f'.rxTime = now)
    (hsize : f'.memSize = fragMemory cfg f'.header f'.data)
    (hsum : s.fragMem + f'.memSize < 2 ^ 32) (age' : List FragId) :
    Tracks cfg now ⟨s.frags.insert k f', age', addU32 s.fragMem (subU32 f'.memSize 0),
      s.fragTimer⟩ (age ++ [k]) := by
  have hmem := h.mem
  have hadd : addU32 s.fragMem (subU32 f'.memSize 0) = s.fragMem - 0 + f'.memSize :=
    addU32_subU32 (by omega) h.small (by omega) (by omega)
  have hnot : k ∉ s.frags := AList.lookup_eq_none.mp hf
  -- An entry that is not in the table has no age yet.
  have hage : k ∉ age := fun hk => hnot ((h.keys k).mp hk)
  have hlookup : ∀ k', k' ≠ k → (s.frags.insert k f').lookup k' = s.frags.lookup k' :=
    fun k' hne => AList.lookup_insert_ne hne
  refine ⟨?_, by simp only [hadd]; omega, ?_, ?_, ?_, ?_⟩
  · simp only [hadd, total_insert, erase_of_lookup_eq_none hf]
    omega
  · rw [List.nodup_append]
    refine ⟨h.nodup, List.nodup_singleton k, ?_⟩
    rintro a ha b hb rfl
    exact hage (by rwa [List.mem_singleton.mp hb] at ha)
  · intro k'
    rw [List.mem_append, List.mem_singleton, h.keys, AList.mem_insert, or_comm]
  · rw [List.pairwise_append]
    have hne : ∀ x ∈ age, x ≠ k := by
      rintro x hx rfl
      exact hage hx
    refine ⟨?_, List.pairwise_singleton _ _, ?_⟩
    · refine h.order.imp_of_mem ?_
      intro a b ha hb hab
      simp only [rxTimeOf, hlookup a (hne a ha), hlookup b (hne b hb)]
      exact hab
    · intro a ha b hb
      obtain rfl := List.mem_singleton.mp hb
      obtain ⟨f, hf'⟩ := mem_frags_iff.mp ((h.keys a).mp ha)
      have hle := (h.entry a f hf').2
      simp only [rxTimeOf, hlookup a (hne a ha), hf', AList.lookup_insert, Option.map_some,
        Option.getD_some, hrx]
      omega
  · intro k' g hg
    by_cases hk : k' = k
    · subst hk
      simp only [AList.lookup_insert, Option.some.injEq] at hg
      subst hg
      exact ⟨hsize, Nat.le_of_eq hrx⟩
    · simp only [hlookup k' hk] at hg
      have hentry := h.entry k' g hg
      exact ⟨hentry.1, Nat.le_trans hentry.2 hnow⟩

/-- The entry of a fragment that came before. -/
theorem openFrag_of_some {f : Frag} {now : Nat} {mf : Bool} (hf : s.frags.lookup k = some f)
    (hpos : f.memSize ≠ 0) :
    s.openFrag now k mf =
      ({ f with lastFragReceived := f.lastFragReceived || !mf }, s.fragsAge) := by
  unfold Ipv4.openFrag
  rw [hf, Option.getD_some]
  cases mf <;> simp [hpos]

/-- The entry of a fragment that comes first. -/
theorem openFrag_of_none {now : Nat} {mf : Bool} (hf : s.frags.lookup k = none) :
    s.openFrag now k mf = (⟨[], [], now, 0, !mf⟩, s.fragsAge ++ [k]) := by
  unfold Ipv4.openFrag
  rw [hf]
  cases mf <;> rfl

/-- The settings for which the sizes below fit into 32 bits. -/
structure ImplSizeOk (cfg : IpConfig) : Prop where
  pos : 0 < cfg.implSize
  small : cfg.implSize ≤ 2 ^ 30

/-- A fragment takes memory. -/
theorem fragMemory_pos (hcfg : ImplSizeOk cfg) (header : Packet) (data : SegMap Int) :
    0 < fragMemory cfg header data := by
  have := hcfg.pos
  unfold fragMemory
  omega

/-- The state after a fragment was merged into its entry. -/
theorem merged_tracks {now : Nat} {h : IpHdr} {p : Packet} {frag : Frag} (hcfg : ImplSizeOk cfg)
    (htracks : Tracks cfg t s s.fragsAge) (hhigh : s.fragMem ≤ fragHighThresh) (hnow : t ≤ now)
    (hlen : p.length ≤ ipPacketLenMax)
    (hmerge : (s.openFrag now k h.mf).1.merge cfg h h.offset p = .ok frag) :
    Tracks cfg now ⟨s.frags.insert k frag, (s.openFrag now k h.mf).2,
      addU32 s.fragMem (subU32 frag.memSize (s.openFrag now k h.mf).1.memSize), s.fragTimer⟩
      (s.openFrag now k h.mf).2 := by
  obtain ⟨_, _, _, hsize, hrx, _⟩ := fragMerge_spec hmerge
  have hgrow := fragMerge_memory hmerge
  have hsmall := hcfg.small
  rw [fragHighThresh] at hhigh
  rw [ipPacketLenMax] at hlen
  cases hf : s.frags.lookup k with
  | some f =>
    obtain ⟨hfsize, hfrx⟩ := htracks.entry k f hf
    have hpos := fragMemory_pos hcfg f.header f.data
    have hle : f.memSize ≤ s.fragMem := by
      rw [htracks.mem]
      exact le_total hf
    rw [openFrag_of_some hf (by omega)] at hgrow hrx ⊢
    dsimp only at hgrow
    rw [Nat.mod_eq_of_lt (by omega)] at hsize
    have hupdate := htracks.update hf hrx hsize (by omega) s.fragsAge
    refine ⟨hupdate.mem, hupdate.small, hupdate.nodup, hupdate.keys, hupdate.order, ?_⟩
    intro k' f' hf'
    obtain ⟨hmem, hrx'⟩ := hupdate.entry k' f' hf'
    exact ⟨hmem, Nat.le_trans hrx' hnow⟩
  | none =>
    rw [openFrag_of_none hf] at hgrow hrx ⊢
    have hempty : fragMemory cfg [] [] = cfg.implSize := by simp [fragMemory, segMemory]
    dsimp only at hgrow
    rw [hempty] at hgrow
    rw [Nat.mod_eq_of_lt (by omega)] at hsize
    exact htracks.create hnow hf hrx hsize (by omega) _

/-- Shedding entries adds none. -/
theorem Sheds.mem_of_mem {r : Ipv4} {n : Nat} (h : Sheds s r age n) (hk : k ∈ r.frags) :
    k ∈ s.frags := by
  obtain ⟨f, hf⟩ := mem_frags_iff.mp hk
  rw [h.lookup] at hf
  split at hf
  · cases hf
  · exact mem_frags_iff.mpr ⟨f, hf⟩

/-- A fragment keeps the invariant. -/
theorem reassemble_inv {now : Nat} {h : IpHdr} {p : Packet} {src : List UInt8} {s' : Ipv4}
    {out : List IpOutput} (hcfg : ImplSizeOk cfg) (hinv : FragInv cfg t s) (hnow : t ≤ now)
    (hlen : p.length ≤ ipPacketLenMax)
    (hok : Ipv4.reassemble cfg s now h p src = .ok (s', out)) : FragInv cfg now s' := by
  obtain ⟨n, hsheds, htracks, hhigh, _⟩ := fragLimitMem_spec hinv.toTracks
  unfold Ipv4.reassemble at hok
  dsimp only at hok
  obtain ⟨frag, hmerge, hrest⟩ := bind_eq_ok.mp hok
  have hmerged := merged_tracks hcfg htracks hhigh hnow hlen hmerge
  split at hrest
  · obtain ⟨out', _, hresult⟩ := bind_eq_ok.mp hrest
    cases hresult
    refine ⟨(hmerged.remove (AList.lookup_insert _)).1.withAge, ?_⟩
    -- an entry that is left was there before, so the timer is armed
    intro k' hk'
    have herase : k' ∈ (s.fragLimitMem.frags.insert ⟨h.srcIp, h.dstIp, h.id, h.ipProto⟩ frag).erase
        ⟨h.srcIp, h.dstIp, h.id, h.ipProto⟩ := hk'
    rw [AList.mem_erase, AList.mem_insert] at herase
    have hmem : k' ∈ s.frags := hsheds.mem_of_mem (herase.2.resolve_left herase.1)
    have htimer := hinv.timer k' hmem
    rwa [← hsheds.timer] at htimer
  · split at hrest
    · cases hrest
      exact ⟨⟨hmerged.mem, hmerged.small, hmerged.nodup, hmerged.keys, hmerged.order, hmerged.entry⟩,
        fun _ _ => nofun⟩
    · rename_i harmed
      cases hrest
      exact ⟨hmerged, fun _ _ => harmed⟩

/-- A received packet keeps the invariant. -/
theorem handleReceivedPacket_inv {now : Nat} {p : Packet} {flag : Bool} {src : List UInt8}
    {s' : Ipv4} {out : List IpOutput} (hcfg : ImplSizeOk cfg) (hinv : FragInv cfg t s)
    (hnow : t ≤ now) (hok : Ipv4.handleReceivedPacket cfg s now p flag src = .ok (s', out)) :
    FragInv cfg now s' := by
  have hlater : FragInv cfg now s :=
    ⟨⟨hinv.mem, hinv.small, hinv.nodup, hinv.keys, hinv.order, fun k f hf =>
      ⟨(hinv.entry k f hf).1, Nat.le_trans (hinv.entry k f hf).2 hnow⟩⟩, hinv.timer⟩
  unfold Ipv4.handleReceivedPacket at hok
  split at hok
  · cases hok
    exact hlater
  · rename_i h p' haccept
    split at hok
    · obtain ⟨_, rfl, _, rfl, hmax⟩ := accept_spec haccept
      refine reassemble_inv hcfg hinv hnow ?_ hok
      rw [List.length_take]
      omega
    · split at hok
      · cases hok
        exact hlater
      · obtain ⟨_, _, hresult⟩ := bind_eq_ok.mp hok
        cases hresult
        exact hlater

/-- The timer keeps the invariant. -/
theorem fragTimeoutFires_inv {now : Nat} (hinv : FragInv cfg t s) (hnow : t ≤ now) :
    FragInv cfg now (s.fragTimeoutFires now) := by
  have hlater : Tracks cfg now { s with fragTimer := none } s.fragsAge :=
    ⟨hinv.mem, hinv.small, hinv.nodup, hinv.keys, hinv.order, fun k f hf =>
      ⟨(hinv.entry k f hf).1, Nat.le_trans (hinv.entry k f hf).2 hnow⟩⟩
  have hnone : ∀ r : Ipv4, r.frags.entries.isEmpty = true → ∀ k, k ∉ r.frags := by
    intro r hr k hk
    have hkeys : k ∈ r.frags.entries.map Sigma.fst := hk
    rw [List.isEmpty_iff.mp hr] at hkeys
    exact absurd hkeys List.not_mem_nil
  unfold Ipv4.fragTimeoutFires
  dsimp only
  split
  · rename_i hempty
    exact ⟨hlater, fun k hk => absurd hk (hnone _ hempty k)⟩
  · obtain ⟨n, hsheds, htracks⟩ := fragTimeoutLoop_spec now s.fragsAge _ hlater
    rw [← hsheds.rest] at htracks
    split
    · rename_i hempty
      refine ⟨⟨?_, Nat.two_pow_pos 32, htracks.nodup, htracks.keys, htracks.order, htracks.entry⟩,
        fun k hk => absurd hk (hnone _ hempty k)⟩
      simp only [total, List.isEmpty_iff.mp hempty]
      rfl
    · exact ⟨⟨htracks.mem, htracks.small, htracks.nodup, htracks.keys, htracks.order,
        htracks.entry⟩, fun _ _ h => by cases h⟩

/-! ### Runs -/

/-- The states that packets and timers reach. The second argument is the time. -/
inductive IpReaches (cfg : IpConfig) : Ipv4 → Nat → Prop
  | start (t : Nat) : IpReaches cfg .create t
  | packet {s s' : Ipv4} {t now : Nat} {p : Packet} {flag : Bool} {src : List UInt8}
      {out : List IpOutput} : IpReaches cfg s t → t ≤ now →
      Ipv4.handleReceivedPacket cfg s now p flag src = .ok (s', out) → IpReaches cfg s' now
  | timer {s : Ipv4} {t now : Nat} : IpReaches cfg s t → t ≤ now →
      IpReaches cfg (s.fragTimeoutFires now) now

/-- The invariant holds wherever the layer gets to. -/
theorem IpReaches.inv (hcfg : ImplSizeOk cfg) (h : IpReaches cfg s t) : FragInv cfg t s := by
  induction h with
  | start t =>
    refine ⟨⟨rfl, by decide, List.nodup_nil, fun k => ?_, List.Pairwise.nil, nofun⟩, ?_⟩
    · exact ⟨fun hk => absurd hk List.not_mem_nil, fun hk => absurd hk List.not_mem_nil⟩
    · exact fun k hk => absurd hk List.not_mem_nil
  | packet _ hnow hok ih => exact handleReceivedPacket_inv hcfg ih hnow hok
  | timer _ hnow ih => exact fragTimeoutFires_inv ih hnow

/-- `_frag_mem`, `_frags_age` and `_frag_timer` agree with `_frags`. -/
structure Bookkeeping (s : Ipv4) : Prop where
  mem : s.fragMem = (s.frags.entries.map fun e => e.2.memSize).sum
  nodup : s.fragsAge.Nodup
  keys : ∀ k, k ∈ s.fragsAge ↔ k ∈ s.frags
  order : s.fragsAge.Pairwise fun k k' => rxTimeOf s k ≤ rxTimeOf s k'
  armed : s.frags.entries ≠ [] → s.fragTimer ≠ none

/-- `r` is `s` after `frag_limit_mem`: without the oldest entries, and below the thresholds. -/
structure Limited (s r : Ipv4) : Prop where
  high : r.fragMem ≤ fragHighThresh
  oldest : ∃ n, r.fragsAge = s.fragsAge.drop n ∧
    (∀ k, r.frags.lookup k = if k ∈ s.fragsAge.take n then none else s.frags.lookup k) ∧
    (0 < n → r.fragMem ≤ fragLowThresh)

/-- The reassembly keeps its books, whatever arrives and whenever the timer fires. -/
theorem fragment_bookkeeping (hcfg : ImplSizeOk cfg) (h : IpReaches cfg s t) :
    Bookkeeping s ∧ Limited s s.fragLimitMem := by
  have hinv := h.inv hcfg
  obtain ⟨n, hsheds, _, hhigh, hlow⟩ := fragLimitMem_spec hinv.toTracks
  refine ⟨⟨hinv.mem, hinv.nodup, hinv.keys, hinv.order, ?_⟩,
    ⟨hhigh, n, hsheds.rest, hsheds.lookup, hlow⟩⟩
  intro hne
  obtain ⟨e, he⟩ := List.exists_mem_of_ne_nil _ hne
  exact hinv.timer e.1 (List.mem_map_of_mem he)

/-- A fragment with eight bytes of the datagram `id`, at the offset `8 * units`. More follow. -/
def sampleFragment (id units : UInt8) : Packet :=
  [0x45, 0, 0, 28, 0, id, 0x20, units, 64, 17, 0, 0, 10, 0, 0, 2, 10, 0, 0, 1] ++ List.replicate 8 1

/-- Two fragments of datagram 1 arrive at a new host, and one of datagram 2 comes later. When the timer
fires, datagram 1 has expired and datagram 2 stays. -/
theorem fragment_bookkeeping_expired :
    ∃ s, IpReaches sampleHost s 30008 ∧ s.fragsAge.length = 1 ∧ s.frags.entries.length = 1 ∧
      Bookkeeping s ∧ Limited s s.fragLimitMem := by
  have hfirst : IpReaches sampleHost _ 7 := @IpReaches.packet sampleHost _ _ 5 7
    (sampleFragment 1 0) false [] _ (.start 5) (by decide) rfl
  have hsecond : IpReaches sampleHost _ 9 := @IpReaches.packet sampleHost _ _ 7 9
    (sampleFragment 1 2) false [] _ hfirst (by decide) rfl
  have hother : IpReaches sampleHost _ 20000 := @IpReaches.packet sampleHost _ _ 9 20000
    (sampleFragment 2 0) false [] _ hsecond (by decide) rfl
  have hreach : IpReaches sampleHost _ 30008 := .timer hother (by decide)
  exact ⟨_, hreach, rfl, rfl, fragment_bookkeeping ⟨by decide, by decide⟩ hreach⟩

end Netstar.Proofs.Net
