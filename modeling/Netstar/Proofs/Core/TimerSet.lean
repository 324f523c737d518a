import Mathlib.Data.List.Nodup
import Netstar.Lib.HighBit
import Netstar.Lib.Result
import Netstar.Spec.Core.TimerSet

/-!
# `Netstar.Proofs.Core.TimerSet`: timers expire exactly when they are due

A timer beyond `_last` is in the bucket of the highest bit in which its timeout differs from `_last`.
When `_last` moves to `now`, the buckets after that of `now` are due as a whole, and the buckets
before it keep their timers: their highest difference to `_last` is the one to `now`. The timers of
the bucket of `now` are closer to `now` than to `_last`, so those that are not due go to buckets that
the loop does not visit.
-/

set_option autoImplicit false

namespace Netstar.Proofs.Core.TimerSet

open Netstar.Lib
open Netstar.Spec.Core
open Netstar.Spec.Core.Bitset
open Netstar.Spec.Core.TimerSet

/-! ### Bit sets -/

section Bitset

variable {bits : BitVec 64} {i j : Nat}

/-- One bit is assigned, the others stay. -/
theorem getLsbD_assign (hi : i < 64) (value : Bool) :
    (assign bits i value).getLsbD j = if j = i then value else bits.getLsbD j := by
  rw [assign]
  cases value with
  | true =>
    rw [if_pos rfl, BitVec.getLsbD_or, BitVec.getLsbD_twoPow]
    by_cases hj : j = i
    · simp [hj, hi]
    · simp [hj, Ne.symm hj]
  | false =>
    rw [if_neg (by decide), BitVec.getLsbD_and, BitVec.getLsbD_not, BitVec.getLsbD_twoPow]
    by_cases hj : j = i
    · simp [hj, hi]
    · by_cases hlt : j < 64
      · simp [hj, Ne.symm hj, hlt]
      · simp [hj, BitVec.getLsbD_of_ge bits j (by omega)]

/-- A mask that is not 0 has a bit. -/
theorem exists_getLsbD (h : bits ≠ 0) : ∃ i, bits.getLsbD i = true := by
  refine Classical.byContradiction fun hnone => h ?_
  refine BitVec.eq_of_getLsbD_eq fun i _ => ?_
  have hi : bits.getLsbD i ≠ true := fun hbit => hnone ⟨i, hbit⟩
  simpa using hi

/-- The first set bit. -/
theorem getFirstSet_spec (h : bits ≠ 0) :
    ∃ f, getFirstSet bits = .ok f ∧ bits.getLsbD f = true ∧ ∀ j < f, bits.getLsbD j = false := by
  obtain ⟨i, hi⟩ := exists_getLsbD h
  rw [getFirstSet]
  cases hfind : (List.range 64).find? (bits.getLsbD ·) with
  | none =>
    rw [List.find?_eq_none] at hfind
    exact absurd hi (hfind i (List.mem_range.mpr (BitVec.lt_of_getLsbD hi)))
  | some f =>
    rw [List.find?_range_eq_some] at hfind
    refine ⟨f, rfl, hfind.1, fun j hj => ?_⟩
    simpa using hfind.2.2 j hj

/-- The last set bit. -/
theorem getLastSet_spec (h : bits ≠ 0) :
    ∃ m, getLastSet bits = .ok m ∧ bits.getLsbD m = true ∧ ∀ j, bits.getLsbD j = true → j ≤ m := by
  have hne : bits.toNat ≠ 0 := fun hzero => h (BitVec.eq_of_toNat_eq (by simpa using hzero))
  have hlog : bits.toNat.log2 < 64 := (Nat.log2_lt hne).mpr bits.isLt
  refine ⟨bits.toNat.log2, ?_, Nat.testBit_log2 hne, fun j hj => ?_⟩
  · have hword : UInt64.ofBitVec bits ≠ 0 := fun hzero => h (congrArg UInt64.toBitVec hzero)
    have htoNat : (UInt64.ofBitVec bits).toNat = bits.toNat := rfl
    rw [getLastSet, countLeadingZeros, if_neg hword, htoNat]
    show Except.ok (63 - (63 - bits.toNat.log2)) = Except.ok bits.toNat.log2
    congr 1
    omega
  · have hbit : bits.toNat.testBit j = true := hj
    exact (Nat.le_log2 hne).mpr (Nat.ge_two_pow_of_testBit hbit)

/-- The indices that an iterator visits, when the bit `0` of `bits` stands for the index `base`. -/
theorem visit_spec {bound m base : Nat} {bits : BitVec 64} (hbits : bits.toNat < 2 ^ m)
    (hm : m < bound) : ∃ visited,
      (do let (b, index) ← advance bits (base - 1); visit b index bound) = .ok visited ∧
      visited.Nodup ∧ ∀ i, i ∈ visited ↔ base ≤ i ∧ bits.getLsbD (i - base) = true := by
  induction bound generalizing m base bits with
  | zero => omega
  | succ bound ih =>
    by_cases hzero : bits = 0
    · subst hzero
      refine ⟨[], ?_, List.nodup_nil, by simp⟩
      rw [advance, if_pos rfl, ok_bind]
      exact if_pos rfl
    · obtain ⟨f, hfirst, hset, hbefore⟩ := getFirstSet_spec hzero
      have hm' : m ≠ 0 := by
        rintro rfl
        exact hzero (BitVec.eq_of_toNat_eq (by simpa using hbits))
      -- What is left of the bits is shorter by at least one, which bounds the visits.
      have hshift : (bits >>> (f + 1)).toNat < 2 ^ (m - 1) := by
        rw [BitVec.toNat_ushiftRight, Nat.shiftRight_eq_div_pow]
        refine Nat.div_lt_of_lt_mul (Nat.lt_of_lt_of_le hbits ?_)
        rw [← Nat.pow_add]
        exact Nat.pow_le_pow_right (by decide) (by omega)
      obtain ⟨rest, hrest, hnodup, hmem⟩ :=
        @ih (m - 1) (base + f + 1) (bits >>> (f + 1)) hshift (by omega)
      have hindex : (base : Int) - 1 + (f + 1) = ((base + f + 1 : Nat) : Int) - 1 := by omega
      refine ⟨(base + f) :: rest, ?_, ?_, fun i => ?_⟩
      · rw [advance, if_neg hzero, hfirst]
        show visit (bits >>> (f + 1)) ((base : Int) - 1 + (f + 1)) (bound + 1) = _
        obtain ⟨⟨b, next⟩, hadvance, hvisit⟩ := bind_eq_ok.mp hrest
        rw [hindex, visit, if_neg (by omega), hadvance, ok_bind]
        dsimp only at hvisit ⊢
        rw [hvisit, ok_bind]
        show Except.ok _ = Except.ok _
        congr 2
        omega
      · refine List.nodup_cons.mpr ⟨fun hin => ?_, hnodup⟩
        have := (hmem _).mp hin
        omega
      · rw [List.mem_cons, hmem, BitVec.getLsbD_ushiftRight]
        constructor
        · rintro (rfl | ⟨hge, hbit⟩)
          · exact ⟨by omega, by rw [Nat.add_sub_cancel_left]; exact hset⟩
          · refine ⟨by omega, ?_⟩
            rwa [show f + 1 + (i - (base + f + 1)) = i - base by omega] at hbit
        · rintro ⟨hge, hbit⟩
          rcases Nat.lt_trichotomy (i - base) f with hlt | heq | hgt
          · rw [hbefore _ hlt] at hbit
            cases hbit
          · exact .inl (by omega)
          · refine .inr ⟨by omega, ?_⟩
            rwa [show f + 1 + (i - (base + f + 1)) = i - base by omega]

/-- `for_each_set` visits the set bits from `offset` on. -/
theorem forEachSet_spec (bits : BitVec 64) (offset : Nat) : ∃ visited,
    forEachSet bits offset = .ok visited ∧ visited.Nodup ∧
      ∀ i, i ∈ visited ↔ offset ≤ i ∧ bits.getLsbD i = true := by
  obtain ⟨visited, hvisit, hnodup, hmem⟩ :=
    @visit_spec 65 64 offset (bits >>> offset) (bits >>> offset).isLt (by decide)
  refine ⟨visited, hvisit, hnodup, fun i => ?_⟩
  rw [hmem, BitVec.getLsbD_ushiftRight]
  constructor
  · rintro ⟨hge, hbit⟩
    rw [Nat.add_sub_of_le hge] at hbit
    exact ⟨hge, hbit⟩
  · rintro ⟨hge, hbit⟩
    rw [Nat.add_sub_of_le hge]
    exact ⟨hge, hbit⟩

end Bitset

/-! ### Buckets -/

section Index

variable {last now t u : Int64}

/-- A time stamp that is not negative, as a number. -/
def stamp (x : Int64) : Nat := x.toInt.toNat

/-- A time has 63 bits. -/
theorem stamp_lt (x : Int64) : stamp x < 2 ^ 63 := by
  have hle := x.toInt_lt
  rw [stamp]
  omega

/-- From a time that is not negative on, the order of the times is that of the bits. -/
theorem lt_iff_stamp (h : 0 ≤ last) : last < t ↔ stamp last < stamp t := by
  rw [Int64.lt_iff_toInt_lt, stamp, stamp]
  have hlast : 0 ≤ last.toInt := Int64.le_iff_toInt_le.mp h
  omega

/-- The bits in which two times differ. -/
theorem stamp_xor (hlast : 0 ≤ last) (ht : last < t) :
    (t ^^^ last).toUInt64.toNat = stamp t ^^^ stamp last := by
  have htoNat : ∀ x : Int64, 0 ≤ x.toInt → x.toBitVec.toNat = stamp x := by
    intro x hx
    rw [stamp, ← Int64.toInt_toBitVec, BitVec.toInt_eq_toNat_of_msb]
    · simp
    · rw [BitVec.msb_eq_toInt]
      simpa using hx
  have hlast' : 0 ≤ last.toInt := Int64.le_iff_toInt_le.mp hlast
  have ht' := Int64.lt_iff_toInt_lt.mp ht
  show (t.toBitVec ^^^ last.toBitVec).toNat = _
  rw [BitVec.toNat_xor, htoNat _ (by omega), htoNat _ hlast']

/-- The bucket of a time stamp. -/
def bucketOf (last t : Int64) : Nat := if t ≤ last then 63 else 62 - highBit (stamp last) (stamp t)

/-- A later time is in the bucket of the highest bit in which it differs. -/
theorem bucketOf_of_lt (h : last < t) : bucketOf last t = 62 - highBit (stamp last) (stamp t) :=
  if_neg (Int64.not_le.mpr h)

/-- There are 64 buckets. -/
theorem bucketOf_lt (last t : Int64) : bucketOf last t < 64 := by
  rw [bucketOf]
  split
  · decide
  · omega

/-- Before the last bucket all times are later. -/
theorem lt_of_bucketOf (h : bucketOf last t < 63) : last < t := by
  refine Int64.not_le.mp fun hle => ?_
  rw [bucketOf, if_pos hle] at h
  omega

/-- Two times of 63 bits differ in one of them. -/
theorem highBit_stamp_lt (hlast : 0 ≤ last) (ht : last < t) :
    highBit (stamp last) (stamp t) < 63 :=
  highBit_lt (Nat.ne_of_lt ((lt_iff_stamp hlast).mp ht)) (stamp_lt _) (stamp_lt _)

/-- `get_index` passes its assertion. -/
theorem getIndex_eq (hlast : 0 ≤ last) (t : Int64) : getIndex last t = .ok (bucketOf last t) := by
  rw [getIndex, bucketOf]
  by_cases hle : t ≤ last
  · rw [if_pos hle, if_pos hle]
    rfl
  · have hlt : last < t := Int64.not_le.mp hle
    have hxor := stamp_xor hlast hlt
    have hne := xor_ne_zero (Nat.ne_of_gt ((lt_iff_stamp hlast).mp hlt))
    have hbit := highBit_stamp_lt hlast hlt
    have hword : (t ^^^ last).toUInt64 ≠ 0 := by
      intro hzero
      rw [hzero] at hxor
      exact hne hxor.symm
    rw [highBit_comm] at hbit ⊢
    rw [if_neg hle, if_neg hle, countLeadingZerosLong, countLeadingZeros, if_neg hword, hxor]
    show (if 63 - highBit (stamp t) (stamp last) - 1 < nBuckets - 1 then
      (Except.ok (63 - highBit (stamp t) (stamp last) - 1) : Except TimerFault Nat) else _) = _
    rw [if_pos (by show _ < 63; omega)]
    congr 1
    omega

/-- Of two timers beyond `_last`, the one in the later bucket is the earlier one. -/
theorem lt_of_bucketOf_lt (hlast : 0 ≤ last) (h : bucketOf last t < bucketOf last u) : u < t := by
  have hu := bucketOf_lt last u
  have ht : last < t := lt_of_bucketOf (by omega)
  by_cases hle : u ≤ last
  · exact Int64.lt_of_le_of_lt hle ht
  · have hlt : last < u := Int64.not_le.mp hle
    rw [bucketOf_of_lt ht, bucketOf_of_lt hlt] at h
    have hpos : 0 ≤ u := Int64.le_trans hlast (Int64.le_of_lt hlt)
    exact (lt_iff_stamp hpos).mpr
      (lt_of_highBit_lt ((lt_iff_stamp hlast).mp ht) (by omega))

/-- When `_last` moves to `now`, the buckets before that of `now` stay. -/
theorem bucketOf_stays (hlast : 0 ≤ last) (hnow : last ≤ now) (h : bucketOf last t < bucketOf last now) :
    bucketOf now t = bucketOf last t := by
  have hb := bucketOf_lt last now
  have ht : last < t := lt_of_bucketOf (by omega)
  have hnt : now < t := lt_of_bucketOf_lt hlast h
  have hstamp := (lt_iff_stamp hlast).mp ht
  rw [bucketOf_of_lt hnt, bucketOf_of_lt ht]
  congr 1
  refine highBit_of_lt (Nat.ne_of_lt hstamp) ?_
  by_cases heq : now = last
  · exact .inl (by rw [heq])
  · have hlt : last < now := Int64.lt_of_le_of_ne hnow (Ne.symm heq)
    rw [bucketOf_of_lt ht, bucketOf_of_lt hlt] at h
    exact .inr (by omega)

/-- The timers of the bucket of `now` that are not due move to a later one. -/
theorem bucketOf_moves (hlast : 0 ≤ last) (hnow : last ≤ now) (h : bucketOf last t = bucketOf last now)
    (hnt : now < t) : bucketOf last now < bucketOf now t := by
  have ht : last < t := Int64.lt_of_le_of_lt hnow hnt
  have hlt : last < now := by
    refine Int64.lt_of_le_of_ne hnow ?_
    rintro rfl
    rw [bucketOf_of_lt hnt, bucketOf, if_pos (Int64.le_refl _)] at h
    omega
  have hpos : 0 ≤ now := Int64.le_trans hlast hnow
  have h₁ := highBit_stamp_lt hlast ht
  have h₂ := highBit_stamp_lt hlast hlt
  have hcloser := highBit_lt_of_eq (Nat.ne_of_lt ((lt_iff_stamp hlast).mp hlt))
    (Nat.ne_of_lt ((lt_iff_stamp hlast).mp ht)) (Nat.ne_of_lt ((lt_iff_stamp hpos).mp hnt))
    (by rw [bucketOf_of_lt ht, bucketOf_of_lt hlt] at h; omega)
  rw [bucketOf_of_lt hlt, bucketOf_of_lt hnt]
  rw [bucketOf_of_lt ht, bucketOf_of_lt hlt] at h
  omega

end Index

/-! ### Insertion and removal -/

variable {s : TimerSet} {active : List Timer} {timer : Timer}

/-- The invariant of a timer set with the given active timers. -/
structure Inv (s : TimerSet) (active : List Timer) : Prop where
  last_nonneg : 0 ≤ s.last
  indexed : ∀ i, ∀ t ∈ s.buckets i, bucketOf s.last t.timeout = i
  nodup : ∀ i, (s.buckets i).Nodup
  mem_active : ∀ t, t ∈ active ↔ t ∈ s.buckets (bucketOf s.last t.timeout)
  bits : ∀ i < 64, s.nonEmptyBuckets.getLsbD i = true ↔ s.buckets i ≠ []
  next_le : ∀ t ∈ active, s.next ≤ t.timeout
  ids : (active.map (·.id)).Nodup

/-- A new set has no timers. -/
theorem Inv.create : Inv TimerSet.create [] where
  last_nonneg := by decide
  indexed := fun i t ht => by simp [TimerSet.create] at ht
  nodup := fun i => List.nodup_nil
  mem_active := fun t => by simp [TimerSet.create]
  bits := fun i hi => by simp [TimerSet.create]
  next_le := fun t ht => by simp at ht
  ids := List.nodup_nil

/-- A timer is in the set once. -/
theorem Inv.active_nodup (h : Inv s active) : active.Nodup := h.ids.of_map _

/-- Buckets beyond the last one are not used. -/
theorem Inv.lt_of_mem (h : Inv s active) {i : Nat} (ht : timer ∈ s.buckets i) : i < 64 := by
  rw [← h.indexed i timer ht]
  exact bucketOf_lt _ _

/-- The set after an insertion. -/
def inserted (s : TimerSet) (timer : Timer) : TimerSet :=
  let i := bucketOf s.last timer.timeout
  { s with
    buckets := Function.update s.buckets i (s.buckets i ++ [timer])
    nonEmptyBuckets := assign s.nonEmptyBuckets i true
    next := if timer.timeout < s.next then timer.timeout else s.next }

/-- `insert` puts the timer into its bucket. -/
theorem insert_eq (hlast : 0 ≤ s.last) (timer : Timer) :
    ∃ earlier, s.insert timer = .ok (inserted s timer, earlier) := by
  rw [TimerSet.insert, getIndex_eq hlast, ok_bind, inserted]
  dsimp only
  by_cases hlt : timer.timeout < s.next
  · rw [if_pos hlt, if_pos hlt]
    exact ⟨true, rfl⟩
  · rw [if_neg hlt, if_neg hlt]
    exact ⟨false, rfl⟩

/-- `_next` is not after the new timer. -/
theorem inserted_next_le (s : TimerSet) (timer : Timer) :
    (inserted s timer).next ≤ s.next ∧ (inserted s timer).next ≤ timer.timeout := by
  show (if timer.timeout < s.next then timer.timeout else s.next) ≤ s.next ∧
    (if timer.timeout < s.next then timer.timeout else s.next) ≤ timer.timeout
  split
  · rename_i hlt
    exact ⟨Int64.le_of_lt hlt, Int64.le_refl _⟩
  · rename_i hlt
    exact ⟨Int64.le_refl _, Int64.not_lt.mp hlt⟩

/-- A new timer joins the active ones. -/
theorem Inv.insert (h : Inv s active) (hid : timer.id ∉ active.map (·.id)) :
    Inv (inserted s timer) (active ++ [timer]) := by
  have hnot : timer ∉ active := fun hmem => hid (List.mem_map_of_mem hmem)
  have hnext := inserted_next_le s timer
  have hbucket : ∀ i t, t ∈ (inserted s timer).buckets i ↔
      t ∈ s.buckets i ∨ t = timer ∧ i = bucketOf s.last timer.timeout := by
    intro i t
    rw [inserted]
    by_cases hi : i = bucketOf s.last timer.timeout
    · subst hi
      simp [Function.update_self]
    · simp [hi]
  constructor
  · exact h.last_nonneg
  · intro i t ht
    rcases (hbucket i t).mp ht with ht | ⟨rfl, rfl⟩
    · exact h.indexed i t ht
    · rfl
  · intro i
    show (Function.update s.buckets _ _ i).Nodup
    by_cases hi : i = bucketOf s.last timer.timeout
    · subst hi
      rw [Function.update_self]
      refine List.nodup_append.mpr ⟨h.nodup _, List.nodup_singleton _, ?_⟩
      rintro t ht t' ht' rfl
      obtain rfl : t = timer := by simpa using ht'
      exact hnot ((h.mem_active t).mpr ht)
    · rw [Function.update_of_ne hi]
      exact h.nodup i
  · intro t
    rw [hbucket, List.mem_append, List.mem_singleton, h.mem_active]
    show _ ↔ t ∈ s.buckets (bucketOf s.last t.timeout) ∨ _
    constructor
    · rintro (ht | rfl)
      · exact .inl ht
      · exact .inr ⟨rfl, rfl⟩
    · rintro (ht | ⟨rfl, -⟩)
      · exact .inl ht
      · exact .inr rfl
  · intro i hi
    -- The bit of the bucket is set, and the bucket is not empty, since the timer is in it.
    show (assign s.nonEmptyBuckets _ true).getLsbD i = true ↔ Function.update s.buckets _ _ i ≠ []
    rw [getLsbD_assign (bucketOf_lt _ _)]
    by_cases heq : i = bucketOf s.last timer.timeout
    · subst heq
      simp
    · rw [if_neg heq, Function.update_of_ne heq]
      exact h.bits i hi
  · intro t ht
    rcases List.mem_append.mp ht with ht | ht
    · exact Int64.le_trans hnext.1 (h.next_le t ht)
    · obtain rfl : t = timer := by simpa using ht
      exact hnext.2
  · rw [List.map_append]
    refine List.nodup_append.mpr ⟨h.ids, List.nodup_singleton _, ?_⟩
    rintro i hi j hj rfl
    obtain rfl : i = timer.id := by simpa using hj
    exact hid hi

/-- `remove` finds the timer in its bucket. -/
theorem Inv.remove (h : Inv s active) (hmem : timer ∈ active) :
    ∃ s', s.remove timer = .ok s' ∧ Inv s' (active.erase timer) := by
  have hin := (h.mem_active timer).mp hmem
  rw [TimerSet.remove, getIndex_eq h.last_nonneg, ok_bind, if_pos hin]
  refine ⟨_, rfl, ?_⟩
  generalize hi₀ : bucketOf s.last timer.timeout = i₀ at hin ⊢
  have hlt : i₀ < 64 := h.lt_of_mem hin
  -- The timer is in one bucket only, so erasing it there takes it out of all of them.
  have hbucket : ∀ i t, t ∈ Function.update s.buckets i₀ ((s.buckets i₀).erase timer) i ↔
      t ∈ s.buckets i ∧ t ≠ timer := by
    intro i t
    by_cases hi : i = i₀
    · subst hi
      rw [Function.update_self, (h.nodup i).mem_erase_iff]
      exact And.comm
    · rw [Function.update_of_ne hi]
      refine ⟨fun ht => ⟨ht, ?_⟩, fun ht => ht.1⟩
      rintro rfl
      exact hi ((h.indexed i t ht).symm.trans hi₀)
  constructor
  · exact h.last_nonneg
  · intro i t ht
    exact h.indexed i t ((hbucket i t).mp ht).1
  · intro i
    show (Function.update s.buckets _ _ i).Nodup
    by_cases hi : i = i₀
    · subst hi
      rw [Function.update_self]
      exact (h.nodup i).erase timer
    · rw [Function.update_of_ne hi]
      exact h.nodup i
  · intro t
    show t ∈ active.erase timer ↔ t ∈ Function.update s.buckets _ _ (bucketOf s.last t.timeout)
    rw [hbucket, h.active_nodup.mem_erase_iff, h.mem_active]
    exact And.comm
  · intro i hi
    show (if ((s.buckets i₀).erase timer).isEmpty then assign s.nonEmptyBuckets i₀ false
      else s.nonEmptyBuckets).getLsbD i = true ↔ Function.update s.buckets _ _ i ≠ []
    by_cases heq : i = i₀
    · subst heq
      rw [Function.update_self]
      -- The bit is cleared only when the bucket has become empty.
      by_cases hempty : ((s.buckets i).erase timer).isEmpty = true
      · rw [if_pos hempty, getLsbD_assign hlt, if_pos rfl]
        simp only [List.isEmpty_iff.mp hempty]
        decide
      · rw [if_neg hempty]
        have hset := (h.bits i hi).mpr (List.ne_nil_of_mem hin)
        rw [hset]
        simpa using hempty
    · rw [Function.update_of_ne heq, ← h.bits i hi]
      split
      · rw [getLsbD_assign hlt, if_neg heq]
      · rfl
  · intro t ht
    exact h.next_le t (List.mem_of_mem_erase ht)
  · exact h.ids.sublist (List.erase_sublist.map _)

/-! ### Expiry -/

/-- The buckets before the index of the new time are emptied into the expired timers. -/
theorem spliceBucket_fold {visited : List Nat} {s : TimerSet} {exp : List Timer}
    (hnodup : visited.Nodup) (hlt : ∀ i ∈ visited, i < 64) : ∃ s',
      visited.foldl spliceBucket (s, exp) = (s', exp ++ visited.flatMap s.buckets) ∧
      s'.last = s.last ∧ (∀ j, s'.buckets j = if j ∈ visited then [] else s.buckets j) ∧
      ∀ j, s'.nonEmptyBuckets.getLsbD j =
        if j ∈ visited then false else s.nonEmptyBuckets.getLsbD j := by
  induction visited generalizing s exp with
  | nil => exact ⟨s, by simp, rfl, by simp, by simp⟩
  | cons i visited ih =>
    obtain ⟨hnot, hnodup⟩ := List.nodup_cons.mp hnodup
    obtain ⟨s', hfold, hlast, hbuckets, hbits⟩ :=
      @ih (spliceBucket (s, exp) i).1 (spliceBucket (s, exp) i).2 hnodup
        fun j hj => hlt j (List.mem_cons_of_mem _ hj)
    refine ⟨s', ?_, hlast, fun j => ?_, fun j => ?_⟩
    · rw [List.foldl_cons, List.flatMap_cons, ← List.append_assoc]
      refine hfold.trans ?_
      congr 2
      refine List.flatMap_congr fun j hj => ?_
      have hne : j ≠ i := by
        rintro rfl
        exact hnot hj
      exact Function.update_of_ne hne ..
    · rw [hbuckets]
      show (if j ∈ visited then [] else Function.update s.buckets i [] j) = _
      by_cases hj : j = i
      · subst hj
        simp
      · simp [hj]
    · rw [hbits]
      show (if j ∈ visited then false else (assign s.nonEmptyBuckets i false).getLsbD j) = _
      rw [getLsbD_assign (hlt i (by simp))]
      by_cases hj : j = i
      · subst hj
        simp
      · simp [hj]

/-- A timer that goes back to a bucket. -/
def Later (now : Int64) (i : Nat) (t : Timer) : Bool :=
  decide (now < t.timeout) && bucketOf now t.timeout == i

/-- What the loop over the bucket of `now` leaves behind. -/
structure Redistributed (now : Int64) (index : Nat) (s s' : TimerSet) (list : List Timer) : Prop where
  last : s'.last = now
  bucket : s'.buckets index = []
  others : ∀ i, i ≠ index → s'.buckets i = s.buckets i ++ list.filter (Later now i)
  bits : ∀ i < 64, i ≠ index → (s'.nonEmptyBuckets.getLsbD i = true ↔
    s.nonEmptyBuckets.getLsbD i = true ∨ list.filter (Later now i) ≠ [])
  next_le : s'.next ≤ s.next ∧ ∀ t ∈ list, now < t.timeout → s'.next ≤ t.timeout
  next_eq : s'.next = s.next ∨ ∃ t ∈ list, now < t.timeout ∧ s'.next = t.timeout

/-- The set when the first timer of the bucket is taken out. -/
def popped (s : TimerSet) (index : Nat) (list : List Timer) : TimerSet :=
  { s with buckets := Function.update s.buckets index list }

/-- A bucket without timers has nothing to give away. -/
theorem Redistributed.nil {now : Int64} {index : Nat} (hlast : s.last = now)
    (hlist : s.buckets index = []) : Redistributed now index s s [] :=
  ⟨hlast, hlist, by simp, by simp, ⟨Int64.le_refl _, by simp⟩, .inl rfl⟩

/-- The first timer was due. -/
theorem Redistributed.due {now : Int64} {index : Nat} {s' : TimerSet} {list : List Timer}
    (h : Redistributed now index (popped s index list) s' list) (hdue : timer.timeout ≤ now) :
    Redistributed now index s s' (timer :: list) := by
  have hlater : ∀ i, Later now i timer = false := by
    intro i
    simp [Later, Int64.not_lt.mpr hdue]
  refine ⟨h.last, h.bucket, fun i hi => ?_, fun i hi hne => ?_, ⟨h.next_le.1, fun t ht hlt => ?_⟩, ?_⟩
  · rw [h.others i hi, List.filter_cons, hlater, if_neg (by decide)]
    show Function.update s.buckets index list i ++ _ = _
    rw [Function.update_of_ne hi]
  · rw [h.bits i hi hne, List.filter_cons, hlater, if_neg (by decide)]
    rfl
  · rcases List.mem_cons.mp ht with rfl | ht
    · exact absurd hdue (Int64.not_le.mpr hlt)
    · exact h.next_le.2 t ht hlt
  · exact h.next_eq.imp_right fun ⟨t, ht, hlt⟩ => ⟨t, List.mem_cons_of_mem _ ht, hlt⟩

/-- The first timer went back to a bucket. -/
theorem Redistributed.later {now : Int64} {index : Nat} {s' : TimerSet} {list : List Timer}
    (h : Redistributed now index (inserted (popped s index list) timer) s' list) (hlast : s.last = now)
    (hlt : now < timer.timeout) : Redistributed now index s s' (timer :: list) := by
  have hnext := inserted_next_le (popped s index list) timer
  refine ⟨h.last, h.bucket, fun i hi => ?_, fun i hi hi' => ?_,
    ⟨Int64.le_trans h.next_le.1 hnext.1, fun t ht hlt => ?_⟩, ?_⟩
  · rw [h.others i hi, List.filter_cons]
    show Function.update (popped s index list).buckets (bucketOf s.last timer.timeout)
      (Function.update s.buckets index list (bucketOf s.last timer.timeout) ++ [timer]) i ++ _ = _
    rw [hlast]
    by_cases heq : i = bucketOf now timer.timeout
    · subst heq
      rw [Function.update_self, Function.update_of_ne hi, if_pos (by simp [Later, hlt])]
      simp
    · rw [Function.update_of_ne heq, if_neg (by simp [Later, Ne.symm heq])]
      show Function.update s.buckets index list i ++ _ = _
      rw [Function.update_of_ne hi]
  · rw [h.bits i hi hi', List.filter_cons]
    show (assign s.nonEmptyBuckets (bucketOf s.last _) true).getLsbD i = true ∨ _ ↔ _
    rw [hlast, getLsbD_assign (bucketOf_lt _ _)]
    by_cases heq : i = bucketOf now timer.timeout
    · subst heq
      simp [Later, hlt]
    · rw [if_neg heq, if_neg (by simp [Later, Ne.symm heq])]
  · rcases List.mem_cons.mp ht with rfl | ht
    · exact Int64.le_trans h.next_le.1 hnext.2
    · exact h.next_le.2 t ht hlt
  · rcases h.next_eq with heq | ⟨t, ht, hlt', heq⟩
    · have hvalue : (inserted (popped s index list) timer).next =
          if timer.timeout < s.next then timer.timeout else s.next := rfl
      rw [heq, hvalue]
      split
      · exact .inr ⟨timer, by simp, hlt, rfl⟩
      · exact .inl rfl
    · exact .inr ⟨t, List.mem_cons_of_mem _ ht, hlt', heq⟩

/-- The loop over the bucket of `now` ends, because no timer goes back to that bucket. -/
theorem expireBucket_spec {now : Int64} {index bound : Nat} {list : List Timer} {s : TimerSet}
    {exp : List Timer} (hnow : 0 ≤ now) (hlast : s.last = now) (hlist : s.buckets index = list)
    (hbound : list.length ≤ bound)
    (hmoves : ∀ t ∈ list, now < t.timeout → bucketOf now t.timeout ≠ index) :
    ∃ s', s.expireBucket now index exp bound =
        .ok (s', exp ++ list.filter (·.timeout ≤ now)) ∧ Redistributed now index s s' list := by
  induction bound generalizing s exp list with
  | zero =>
    obtain rfl : list = [] := List.length_eq_zero_iff.mp (Nat.le_zero.mp hbound)
    refine ⟨s, ?_, .nil hlast hlist⟩
    rw [expireBucket, hlist]
    simp
  | succ bound ih =>
    cases list with
    | nil =>
      refine ⟨s, ?_, .nil hlast hlist⟩
      rw [expireBucket, hlist]
      simp
    | cons timer list =>
      have hbound' := Nat.le_of_succ_le_succ hbound
      have hmoves' : ∀ t ∈ list, now < t.timeout → bucketOf now t.timeout ≠ index :=
        fun t ht => hmoves t (List.mem_cons_of_mem _ ht)
      rw [expireBucket, hlist]
      show ∃ s', (if timer.timeout ≤ now then
        (popped s index list).expireBucket now index (exp ++ [timer]) bound
        else (popped s index list).insert timer >>= fun r => r.1.expireBucket now index exp bound) = _ ∧ _
      by_cases hdue : timer.timeout ≤ now
      · -- A timer that is due joins the expired ones.
        obtain ⟨s', hloop, hred⟩ := @ih list (popped s index list) (exp ++ [timer]) hlast
          (Function.update_self ..) hbound' hmoves'
        refine ⟨s', ?_, hred.due hdue⟩
        rw [if_pos hdue, hloop, List.append_assoc, List.filter_cons, if_pos (by simpa using hdue)]
        rfl
      · -- A later timer goes to another bucket, so this one gets shorter.
        have hlt : now < timer.timeout := Int64.not_le.mp hdue
        have hne := hmoves timer (by simp) hlt
        obtain ⟨earlier, hinsert⟩ := insert_eq (s := popped s index list) (hlast ▸ hnow) timer
        have hself : (inserted (popped s index list) timer).buckets index = list := by
          show Function.update (Function.update s.buckets index list) (bucketOf s.last _) _ index = list
          rw [Function.update_of_ne (by rw [hlast]; exact Ne.symm hne), Function.update_self]
        obtain ⟨s', hloop, hred⟩ := @ih list (inserted (popped s index list) timer) exp hlast hself
          hbound' hmoves'
        refine ⟨s', ?_, hred.later hlast hlt⟩
        rw [if_neg hdue, hinsert, ok_bind, hloop, List.filter_cons, if_neg (by simpa using hdue)]

/-- `_next` as the smallest timeout of a bucket. -/
theorem foldl_min_le (list : List Timer) (next : Int64) :
    list.foldl (fun next timer => min next timer.timeout) next ≤ next ∧
      ∀ t ∈ list, list.foldl (fun next timer => min next timer.timeout) next ≤ t.timeout := by
  have hmin : ∀ x y : Int64, min x y ≤ x ∧ min x y ≤ y := by
    intro x y
    show (if x ≤ y then x else y) ≤ x ∧ (if x ≤ y then x else y) ≤ y
    split
    · rename_i hle
      exact ⟨Int64.le_refl _, hle⟩
    · rename_i hle
      exact ⟨Int64.le_of_lt (Int64.not_le.mp hle), Int64.le_refl _⟩
  induction list generalizing next with
  | nil => exact ⟨Int64.le_refl _, by simp⟩
  | cons timer list ih =>
    obtain ⟨hfirst, hrest⟩ := ih (min next timer.timeout)
    refine ⟨Int64.le_trans hfirst (hmin _ _).1, fun t ht => ?_⟩
    rcases List.mem_cons.mp ht with rfl | ht
    · exact Int64.le_trans hfirst (hmin _ _).2
    · exact hrest t ht

/-- The set after the first loop of `expire`: the buckets after that of `now` are empty. -/
structure Spliced (s s₁ : TimerSet) (now : Int64) : Prop where
  last : s₁.last = now
  next : s₁.next = maxTimestamp
  buckets : ∀ i, s₁.buckets i = if bucketOf s.last now < i then [] else s.buckets i
  bits : ∀ i < 64, s₁.nonEmptyBuckets.getLsbD i = true ↔
    ¬ bucketOf s.last now < i ∧ s.buckets i ≠ []

/-- The first loop returns the timers of the buckets after that of `now`. -/
theorem splice_spec (h : Inv s active) (now : Int64) : ∃ visited s₁,
    forEachSet s.nonEmptyBuckets (bucketOf s.last now + 1) = .ok visited ∧
      visited.foldl spliceBucket (s, []) = (s₁, visited.flatMap s.buckets) ∧
      Spliced s { s₁ with last := now, next := maxTimestamp } now ∧
      (visited.flatMap s.buckets).Nodup ∧
      ∀ t, t ∈ visited.flatMap s.buckets ↔
        t ∈ active ∧ bucketOf s.last now < bucketOf s.last t.timeout := by
  obtain ⟨visited, hvisit, hnodup, hmem⟩ :=
    forEachSet_spec s.nonEmptyBuckets (bucketOf s.last now + 1)
  have hlt : ∀ i ∈ visited, i < 64 := fun i hi => BitVec.lt_of_getLsbD ((hmem i).mp hi).2
  obtain ⟨s₁, hfold, -, hbuckets, hbits⟩ := @spliceBucket_fold visited s [] hnodup hlt
  rw [List.nil_append] at hfold
  -- A bucket that is not visited and comes after that of `now` is empty.
  have hvisited : ∀ i, bucketOf s.last now < i → i ∉ visited → s.buckets i = [] := by
    intro i hi hnot
    refine Classical.byContradiction fun hne => ?_
    obtain ⟨t, ht⟩ := List.exists_mem_of_ne_nil _ hne
    exact hnot ((hmem i).mpr ⟨hi, (h.bits i (h.lt_of_mem ht)).mpr hne⟩)
  refine ⟨visited, s₁, hvisit, hfold, ⟨rfl, rfl, fun i => ?_, fun i hi => ?_⟩, ?_, fun t => ?_⟩
  · show s₁.buckets i = _
    rw [hbuckets]
    by_cases hin : i ∈ visited
    · have hafter : bucketOf s.last now < i := ((hmem i).mp hin).1
      rw [if_pos hin, if_pos hafter]
    · rw [if_neg hin]
      split
      · rename_i hafter
        exact hvisited i hafter hin
      · rfl
  · show s₁.nonEmptyBuckets.getLsbD i = true ↔ _
    rw [hbits]
    by_cases hin : i ∈ visited
    · have hafter : bucketOf s.last now < i := ((hmem i).mp hin).1
      simp [hin, hafter]
    · rw [if_neg hin, h.bits i hi]
      refine ⟨fun hne => ⟨fun hafter => hne (hvisited i hafter hin), hne⟩, fun hne => hne.2⟩
  · refine List.nodup_flatMap.mpr ⟨fun i _ => h.nodup i, ?_⟩
    refine hnodup.imp fun hij => ?_
    intro t hti htj
    exact hij ((h.indexed _ t hti).symm.trans (h.indexed _ t htj))
  · rw [List.mem_flatMap, h.mem_active]
    constructor
    · rintro ⟨i, hi, ht⟩
      rw [h.indexed i t ht]
      exact ⟨ht, ((hmem i).mp hi).1⟩
    · rintro ⟨ht, hafter⟩
      exact ⟨_, (hmem _).mpr ⟨hafter, (h.bits _ (bucketOf_lt _ _)).mpr (List.ne_nil_of_mem ht)⟩, ht⟩

section Expire

variable {now : Int64} {s₂ s₃ : TimerSet}

/-- The timers in the buckets at the end of `expire`. -/
theorem mem_buckets_after (hsplice : Spliced s s₂ now)
    (hred : Redistributed now (bucketOf s.last now) s₂ s₃ (s.buckets (bucketOf s.last now)))
    (i : Nat) (t : Timer) : t ∈ s₃.buckets i ↔ i ≠ bucketOf s.last now ∧
      (i < bucketOf s.last now ∧ t ∈ s.buckets i ∨
        t ∈ s.buckets (bucketOf s.last now) ∧ now < t.timeout ∧ bucketOf now t.timeout = i) := by
  by_cases hi : i = bucketOf s.last now
  · rw [hi, hred.bucket]
    simp
  · rw [hred.others i hi, List.mem_append, hsplice.buckets, List.mem_filter, Later]
    have hcases : bucketOf s.last now < i ∨ i < bucketOf s.last now := by omega
    rcases hcases with hafter | hbefore
    · rw [if_pos hafter]
      have hnot : ¬ i < bucketOf s.last now := by omega
      simp [hi, hnot]
    · rw [if_neg (by omega)]
      simp [hi, hbefore]

/-- The timers that are left are those that are not due, each in its bucket. -/
theorem mem_active_after (h : Inv s active) (hnow : s.last ≤ now) (hsplice : Spliced s s₂ now)
    (hred : Redistributed now (bucketOf s.last now) s₂ s₃ (s.buckets (bucketOf s.last now)))
    (t : Timer) : t ∈ active ∧ now < t.timeout ↔ t ∈ s₃.buckets (bucketOf now t.timeout) := by
  have hlast := h.last_nonneg
  rw [mem_buckets_after hsplice hred]
  constructor
  · rintro ⟨ht, hlt⟩
    have hin := (h.mem_active t).mp ht
    rcases Nat.lt_trichotomy (bucketOf s.last t.timeout) (bucketOf s.last now) with hb | hb | hb
    · rw [bucketOf_stays hlast hnow hb]
      exact ⟨by omega, .inl ⟨hb, hin⟩⟩
    · have hmoves := bucketOf_moves hlast hnow hb hlt
      exact ⟨by omega, .inr ⟨hb ▸ hin, hlt, rfl⟩⟩
    · exact absurd hlt (Int64.not_lt.mpr (Int64.le_of_lt (lt_of_bucketOf_lt hlast hb)))
  · rintro ⟨-, ⟨hbefore, hin⟩ | ⟨hin, hlt, -⟩⟩
    · have hindex := h.indexed _ t hin
      rw [← hindex] at hbefore hin
      exact ⟨(h.mem_active t).mpr hin, lt_of_bucketOf_lt hlast hbefore⟩
    · have hindex := h.indexed _ t hin
      rw [← hindex] at hin
      exact ⟨(h.mem_active t).mpr hin, hlt⟩

/-- After `expire` the timers that are left are in the buckets of the new time. -/
theorem inv_after (h : Inv s active) (hnow : s.last ≤ now) (hsplice : Spliced s s₂ now)
    (hred : Redistributed now (bucketOf s.last now) s₂ s₃ (s.buckets (bucketOf s.last now)))
    {next : Int64} (hnext : ∀ t ∈ active.filter (now < ·.timeout), next ≤ t.timeout) :
    Inv { s₃ with
      nonEmptyBuckets := assign s₃.nonEmptyBuckets (bucketOf s.last now) false
      next := next } (active.filter (now < ·.timeout)) := by
  have hlast := h.last_nonneg
  have hmem := mem_buckets_after hsplice hred
  constructor
  · show 0 ≤ s₃.last
    rw [hred.last]
    exact Int64.le_trans hlast hnow
  · intro i t ht
    show bucketOf s₃.last t.timeout = i
    rw [hred.last]
    obtain ⟨-, ⟨hbefore, hin⟩ | ⟨-, -, hi⟩⟩ := (hmem i t).mp ht
    · have hindex := h.indexed i t hin
      -- The buckets below the one of `now` have the same number with the new `last`.
      rw [bucketOf_stays hlast hnow (by omega), hindex]
    · exact hi
  · intro i
    show (s₃.buckets i).Nodup
    by_cases hi : i = bucketOf s.last now
    · rw [hi, hred.bucket]
      exact List.nodup_nil
    · rw [hred.others i hi, hsplice.buckets]
      refine List.nodup_append.mpr ⟨?_, (h.nodup _).filter _, ?_⟩
      · split
        · exact List.nodup_nil
        · exact h.nodup i
      · -- A timer of the bucket of `now` is in no other bucket.
        rintro t ht t' ht' rfl
        split at ht
        · cases ht
        · exact hi ((h.indexed i t ht).symm.trans (h.indexed _ t (List.mem_filter.mp ht').1))
  · intro t
    rw [List.mem_filter, decide_eq_true_eq, mem_active_after h hnow hsplice hred]
    show _ ↔ t ∈ s₃.buckets (bucketOf s₃.last t.timeout)
    rw [hred.last]
  · intro i hi
    show (assign s₃.nonEmptyBuckets _ false).getLsbD i = true ↔ s₃.buckets i ≠ []
    rw [getLsbD_assign (bucketOf_lt _ _)]
    by_cases heq : i = bucketOf s.last now
    · rw [if_pos heq, heq, hred.bucket]
      simp
    · rw [if_neg heq, hred.bits i hi heq, hsplice.bits i hi, hred.others i heq, hsplice.buckets]
      by_cases hafter : bucketOf s.last now < i
      · simp [hafter]
      · simp [hafter]
        grind
  · exact hnext
  · exact h.ids.sublist (List.filter_sublist.map _)

/-- `_next` after the loops: the smallest timeout of the timers that moved, when there is one. -/
theorem next_after (h : Inv s active) (hsplice : Spliced s s₂ now)
    (hred : Redistributed now (bucketOf s.last now) s₂ s₃ (s.buckets (bucketOf s.last now))) :
    s₃.next = maxTimestamp ∨ ∀ t ∈ active.filter (now < ·.timeout), s₃.next ≤ t.timeout := by
  have hlast := h.last_nonneg
  rcases hred.next_eq with heq | ⟨first, hfirst, -, heq⟩
  · exact .inl (heq.trans hsplice.next)
  · right
    intro t ht
    rw [List.mem_filter, decide_eq_true_eq] at ht
    obtain ⟨ht, hlt⟩ := ht
    have hin := (h.mem_active t).mp ht
    rcases Nat.lt_trichotomy (bucketOf s.last t.timeout) (bucketOf s.last now) with hb | hb | hb
    · have hindex := h.indexed _ first hfirst
      rw [← hindex] at hb
      rw [heq]
      exact Int64.le_of_lt (lt_of_bucketOf_lt hlast hb)
    · exact hred.next_le.2 t (hb ▸ hin) hlt
    · exact absurd hlt (Int64.not_lt.mpr (Int64.le_of_lt (lt_of_bucketOf_lt hlast hb)))

/-- The timers of the last bucket that is not empty are the earliest. -/
theorem recomputeNext_spec (h : Inv { s with next := Int64.minValue } active)
    (hnext : s.next = maxTimestamp ∨ ∀ t ∈ active, s.next ≤ t.timeout) :
    ∃ next, s.recomputeNext = .ok { s with next := next } ∧ ∀ t ∈ active, next ≤ t.timeout := by
  have hbit : ∀ t ∈ active, s.nonEmptyBuckets.getLsbD (bucketOf s.last t.timeout) = true := by
    intro t ht
    exact (h.bits _ (bucketOf_lt _ _)).mpr (List.ne_nil_of_mem ((h.mem_active t).mp ht))
  rw [recomputeNext]
  by_cases hcond : s.next = maxTimestamp ∧ s.nonEmptyBuckets ≠ 0
  · obtain ⟨m, hlastSet, hset, hmax⟩ := getLastSet_spec hcond.2
    have hnonempty : s.buckets m ≠ [] := (h.bits m (BitVec.lt_of_getLsbD hset)).mp hset
    obtain ⟨first, hfirst⟩ := List.exists_mem_of_ne_nil _ hnonempty
    have hle := (foldl_min_le (s.buckets m) s.next).2
    rw [if_pos hcond, hlastSet]
    refine ⟨_, rfl, fun t ht => ?_⟩
    rcases Nat.lt_or_eq_of_le (hmax _ (hbit t ht)) with hb | hb
    · have hindex : bucketOf s.last first.timeout = m := h.indexed m first hfirst
      rw [← hindex] at hb
      exact Int64.le_trans (hle first hfirst) (Int64.le_of_lt (lt_of_bucketOf_lt h.last_nonneg hb))
    · exact hle t (hb ▸ (h.mem_active t).mp ht)
  · rw [if_neg hcond]
    refine ⟨s.next, rfl, fun t ht => ?_⟩
    rcases hnext with hmax | hnext
    · have hzero : s.nonEmptyBuckets = 0 := Classical.byContradiction fun hne => hcond ⟨hmax, hne⟩
      have hset := hbit t ht
      rw [hzero] at hset
      simp at hset
    · exact hnext t ht

end Expire

/-- `expire` returns the timers that are due, and keeps the others. -/
theorem expire_spec (h : Inv s active) {now : Int64} (hnow : s.last ≤ now) : ∃ s' exp,
    s.expire now = .ok (s', exp) ∧ s'.last = now ∧ Inv s' (active.filter (now < ·.timeout)) ∧
      exp.Nodup ∧ ∀ t, t ∈ exp ↔ t ∈ active ∧ t.timeout ≤ now := by
  have hlast := h.last_nonneg
  -- The buckets above the one of `now` are due as a whole, and its own bucket is gone through timer
  -- by timer.
  obtain ⟨visited, s₁, hvisit, hfold, hsplice, hnodup, hmem⟩ := splice_spec h now
  have hbucket : s₁.buckets (bucketOf s.last now) = s.buckets (bucketOf s.last now) := by
    rw [hsplice.buckets (bucketOf s.last now), if_neg (Nat.lt_irrefl _)]
  obtain ⟨s₃, hloop, hred⟩ := @expireBucket_spec now (bucketOf s.last now) _ _
    { s₁ with last := now, next := maxTimestamp } (visited.flatMap s.buckets)
    (Int64.le_trans hlast hnow) rfl hbucket (Nat.le_of_eq (congrArg List.length hbucket.symm)) (by
      intro t ht hlt
      have hindex := h.indexed _ t ht
      exact Nat.ne_of_gt (bucketOf_moves hlast hnow hindex hlt))
  have hafter := next_after h hsplice hred
  obtain ⟨next, hrecompute, hnext⟩ := @recomputeNext_spec
    { s₃ with nonEmptyBuckets := assign s₃.nonEmptyBuckets (bucketOf s.last now) false }
    (active.filter (now < ·.timeout))
    (inv_after h hnow hsplice hred fun t _ => Int64.minValue_le t.timeout)
    hafter
  refine ⟨_, visited.flatMap s.buckets ++ (s.buckets (bucketOf s.last now)).filter (·.timeout ≤ now),
    ?_, ?_, inv_after h hnow hsplice hred hnext, ?_, ?_⟩
  · rw [expire, if_neg (Int64.not_lt.mpr hnow), getIndex_eq hlast]
    show (forEachSet s.nonEmptyBuckets (bucketOf s.last now + 1) >>= _) = _
    rw [hvisit, ok_bind, hfold]
    dsimp only
    rw [hloop, ok_bind]
    dsimp only
    rw [hred.bucket]
    show (recomputeNext { s₃ with
      nonEmptyBuckets := assign s₃.nonEmptyBuckets (bucketOf s.last now) false } >>= _) = _
    rw [hrecompute]
    rfl
  · exact hred.last
  · refine List.nodup_append.mpr ⟨hnodup, (h.nodup _).filter _, ?_⟩
    rintro t ht t' ht' rfl
    have hindex := h.indexed _ t (List.mem_filter.mp ht').1
    have hafter := ((hmem t).mp ht).2
    omega
  · intro t
    rw [List.mem_append, hmem, List.mem_filter, decide_eq_true_eq]
    constructor
    · rintro (⟨ht, hafter⟩ | ⟨hin, hle⟩)
      · exact ⟨ht, Int64.le_of_lt (lt_of_bucketOf_lt hlast hafter)⟩
      · have hindex := h.indexed _ t hin
        rw [← hindex] at hin
        exact ⟨(h.mem_active t).mpr hin, hle⟩
    · rintro ⟨ht, hle⟩
      have hin := (h.mem_active t).mp ht
      -- The lower the bucket, the later its timers: a lower one than that of `now` is not due.
      rcases Nat.lt_trichotomy (bucketOf s.last t.timeout) (bucketOf s.last now) with hb | hb | hb
      · exact absurd hle (Int64.not_le.mpr (lt_of_bucketOf_lt hlast hb))
      · exact .inr ⟨hb ▸ hin, hle⟩
      · exact .inl ⟨ht, hb⟩

/-! ### Runs -/

/-- What the user of a timer set sees. -/
structure Correct (s : Session) : Prop where
  noFault : s.fault = none
  returned_nodup : s.returned.Nodup
  returned : ∀ t, t ∈ s.returned ↔ t ∈ s.due
  held : ∀ t, t ∈ s.active ↔ ∃ i, t ∈ s.set.buckets i
  held_once : ∀ i, (s.set.buckets i).Nodup
  indexed : ∀ i, ∀ t ∈ s.set.buckets i, getIndex s.set.last t.timeout = .ok i
  next : ∀ t ∈ s.active, s.set.getNextTimeout ≤ max s.set.last t.timeout

/-- No call of `expire` names a time before the one at which the set starts. -/
def EpochOrLater (_ : Session) : Call → Prop
  | .expire now => 0 ≤ now
  | _ => True

/-- The invariant of a session. -/
structure SessionInv (s : Session) : Prop where
  set : Inv s.set s.active
  previous : s.set.last = s.previous.getD 0
  returned_nodup : s.returned.Nodup
  returned : ∀ t, t ∈ s.returned ↔ t ∈ s.due

/-- A new session. -/
theorem SessionInv.create : SessionInv Session.create :=
  ⟨Inv.create, rfl, List.nodup_nil, fun _ => Iff.rfl⟩

/-- The later of two times. -/
theorem max_mono {a b c : Int64} (h : b ≤ c) : max a b ≤ max a c := by
  show (if a ≤ b then b else a) ≤ if a ≤ c then c else a
  split
  · rename_i hab
    rw [if_pos (Int64.le_trans hab h)]
    exact h
  · split
    · rename_i hac
      exact hac
    · exact Int64.le_refl a

/-- In a state with the invariant the results so far were right. -/
theorem SessionInv.correct {s : Session} (h : SessionInv s) (hfault : s.fault = none) : Correct s := by
  refine ⟨hfault, h.returned_nodup, h.returned, fun t => ?_, h.set.nodup, fun i t ht => ?_,
    fun t ht => max_mono (h.set.next_le t ht)⟩
  · rw [h.set.mem_active]
    constructor
    · exact fun ht => ⟨_, ht⟩
    · rintro ⟨i, ht⟩
      rwa [h.set.indexed i t ht]
  · rw [getIndex_eq h.set.last_nonneg, h.set.indexed i t ht]

/-- `expire` aborts exactly when its time is before the one at which the set starts. -/
theorem SessionInv.expire {s : Session} (h : SessionInv s) {now : Int64}
    (hallowed : s.previous.all (· ≤ now) = true) : s.set.last ≤ now ↔ 0 ≤ now := by
  rw [h.previous]
  cases hprevious : s.previous with
  | none => exact Iff.rfl
  | some p =>
    have hle : p ≤ now := by simpa [hprevious] using hallowed
    have hlast := h.set.last_nonneg
    rw [h.previous, hprevious] at hlast
    exact ⟨fun _ => Int64.le_trans hlast hle, fun _ => hle⟩

/-- `expire` aborts when the time goes back. -/
theorem expire_aborts {now : Int64} (h : now < s.last) : s.expire now = .error .aborted := by
  rw [TimerSet.expire, if_pos h]
  rfl

/-- A call that is allowed succeeds, unless it is an `expire` before the start. -/
theorem SessionInv.perform {s : Session} {c : Call} (h : SessionInv s) (hallowed : s.allowed c = true) :
    (EpochOrLater s c ∧ ∃ t, s.perform c = .ok t ∧ SessionInv t ∧ t.fault = s.fault) ∨
      (¬ EpochOrLater s c ∧ ∃ e, s.perform c = .error e) := by
  cases c with
  | insert timer =>
    obtain ⟨earlier, hinsert⟩ := insert_eq h.set.last_nonneg timer
    have hinv : Inv (inserted s.set timer) (s.active ++ [timer]) :=
      h.set.insert (by simpa [Session.allowed] using hallowed)
    rw [Session.perform, hinsert]
    exact .inl ⟨trivial, _, rfl, ⟨hinv, h.previous, h.returned_nodup, h.returned⟩, rfl⟩
  | remove timer =>
    have hmem : timer ∈ s.active := by simpa [Session.allowed] using hallowed
    obtain ⟨set, hremove, hinv⟩ := h.set.remove hmem
    have hlast : set.last = s.set.last := by
      have hremove := hremove
      rw [TimerSet.remove, getIndex_eq h.set.last_nonneg, ok_bind] at hremove
      split at hremove
      · cases hremove
        rfl
      · cases hremove
    rw [Session.perform, hremove]
    exact .inl ⟨trivial, _, rfl, ⟨hinv, hlast.trans h.previous, h.returned_nodup, h.returned⟩, rfl⟩
  | expire now =>
    have hepoch := h.expire hallowed
    by_cases hnow : s.set.last ≤ now
    · obtain ⟨set, exp, hexpire, hlast, hinv, hnodup, hmem⟩ := expire_spec h.set hnow
      rw [Session.perform, hexpire]
      refine .inl ⟨hepoch.mp hnow, _, rfl, ⟨hinv, hlast, hnodup, fun t => ?_⟩, rfl⟩
      rw [hmem, List.mem_filter, decide_eq_true_eq]
    · refine .inr ⟨fun h' => hnow (hepoch.mpr h'), .aborted, ?_⟩
      rw [Session.perform, expire_aborts (Int64.not_le.mp hnow)]
      rfl

/-- A step keeps the invariant, and it has no fault exactly when the time does not go back. -/
theorem SessionInv.step {s t : Session} {c : Call} (h : SessionInv s) (hstep : s.step c = some t) :
    SessionInv t ∧ (t.fault = none ↔ EpochOrLater s c) := by
  rw [Session.step] at hstep
  split at hstep
  · cases hstep
  · rename_i hcond
    simp only [Bool.or_eq_true, not_or, Bool.not_eq_true, Bool.not_eq_false',
      Option.isSome_eq_false_iff, Option.isNone_iff_eq_none] at hcond
    obtain ⟨hfault, hallowed⟩ := hcond
    rcases h.perform hallowed with ⟨hepoch, t', hperform, hinv, hfault'⟩ | ⟨hepoch, e, hperform⟩
    · rw [hperform] at hstep
      cases hstep
      exact ⟨hinv, fun _ => hepoch, fun _ => hfault'.trans hfault⟩
    · rw [hperform] at hstep
      cases hstep
      exact ⟨⟨h.set, h.previous, h.returned_nodup, h.returned⟩, (fun hnone => nomatch hnone),
        fun h' => absurd h' hepoch⟩

/-- Timers expire exactly when they are due and are found in their buckets, in every run in which no
`expire` names a time before the one at which the set starts. -/
theorem timerSet_correct_iff (cs : List Call) :
    Always Session.step Correct Session.create cs ↔
      Guarded Session.step EpochOrLater Session.create cs :=
  always_iff_guarded SessionInv (fun _ _ _ hs _ hstep => (hs.step hstep).1)
    (fun _ _ _ hs _ hstep =>
      ⟨fun hcorrect => (hs.step hstep).2.mp hcorrect.noFault,
        fun hepoch => (hs.step hstep).1.correct ((hs.step hstep).2.mpr hepoch)⟩)
    SessionInv.create (SessionInv.create.correct rfl) cs

/-- The first `expire` of a set, at a time before the epoch of the clock. -/
theorem expire_before_epoch_aborts :
    ¬ Always Session.step Correct Session.create [.expire (-1)] := by
  intro h
  have hnext := (h.2 _ rfl).noFault
  exact nomatch hnext

end Netstar.Proofs.Core.TimerSet
