import Netstar.Proofs.Core.TimerSet

/-!
# `Netstar.Proofs.Core.TimerSetBits`: the bit set of the buckets that are not empty

`insert`, `remove` and `expire` keep the bit of a bucket in step with its list. That is a part of the
invariant `Inv`. `clear` empties the lists and leaves the bits, so it keeps them in step only when
there was nothing to clear. `bitsRight_iff` states this over runs.

The bucket of the last set bit holds the earliest timers (`Inv.earliest`), because a timer of a later
bucket is due before every timer of an earlier one.
-/

set_option autoImplicit false

namespace Netstar.Proofs.Core.TimerSet

open Netstar.Lib
open Netstar.Spec.Core
open Netstar.Spec.Core.Bitset
open Netstar.Spec.Core.TimerSet

/-- What the bit set is for. -/
structure BitsRight (s : TimerSet) : Prop where
  /-- A bit is set exactly when its bucket is not empty. -/
  bits : ∀ i < 64, s.nonEmptyBuckets.getLsbD i = true ↔ s.buckets i ≠ []
  /-- `empty()` holds exactly when `size()` is 0. -/
  empty_iff : ∃ n, s.size = .ok n ∧ (s.empty = true ↔ n = 0)
  /-- The last bucket that is not empty holds the earliest timers. -/
  earliest : s.empty = false → ∃ i, getLastSet s.nonEmptyBuckets = .ok i ∧ s.buckets i ≠ [] ∧
    ∀ t ∈ s.buckets i, ∀ j ≠ i, ∀ u ∈ s.buckets j, t.timeout < u.timeout

theorem empty_eq_true {s : TimerSet} : s.empty = true ↔ s.nonEmptyBuckets = 0 := beq_iff_eq

/-- An empty mask has no bit. -/
theorem getLsbD_of_empty {s : TimerSet} (h : s.empty = true) (i : Nat) :
    s.nonEmptyBuckets.getLsbD i = false := by
  rw [empty_eq_true.mp h]
  exact BitVec.getLsbD_zero

/-! ### The sizes of the buckets -/

/-- A sum over the visited buckets. -/
theorem foldl_length (f : Nat → List Timer) (visited : List Nat) (n : Nat) :
    visited.foldl (fun res i => res + (f i).length) n = n + (visited.map fun i => (f i).length).sum := by
  induction visited generalizing n with
  | nil => rfl
  | cons i visited ih => rw [List.foldl_cons, ih, List.map_cons, List.sum_cons, Nat.add_assoc]

/-- `size` adds the lengths of the buckets that have a bit. -/
theorem size_spec (s : TimerSet) : ∃ n, s.size = .ok n ∧
    (n = 0 ↔ ∀ i, s.nonEmptyBuckets.getLsbD i = true → s.buckets i = []) := by
  obtain ⟨visited, hvisit, -, hmem⟩ := forEachSet_spec s.nonEmptyBuckets 0
  refine ⟨visited.foldl (fun res i => res + (s.buckets i).length) 0, ?_, ?_⟩
  · rw [TimerSet.size, hvisit]
    rfl
  · rw [foldl_length, Nat.zero_add, List.sum_eq_zero_iff_forall_eq_nat]
    constructor
    · intro h i hi
      have hvisited : i ∈ visited := (hmem i).mpr ⟨Nat.zero_le i, hi⟩
      exact List.eq_nil_of_length_eq_zero (h _ (List.mem_map_of_mem hvisited))
    · intro h n hn
      obtain ⟨i, hi, rfl⟩ := List.mem_map.mp hn
      rw [h i ((hmem i).mp hi).2]
      rfl

/-! ### The invariant -/

variable {s : TimerSet} {active : List Timer}

/-- A timer of a bucket with a bit is earlier than those of the buckets before it. -/
theorem Inv.earliest (h : Inv s active) {i j : Nat} (hij : j < i) {t u : Timer}
    (ht : t ∈ s.buckets i) (hu : u ∈ s.buckets j) : t.timeout < u.timeout := by
  refine lt_of_bucketOf_lt h.last_nonneg ?_
  rw [h.indexed j u hu, h.indexed i t ht]
  exact hij

/-- In a state with the invariant the mask tells which buckets have timers. -/
theorem Inv.bitsRight (h : Inv s active) : BitsRight s where
  bits := h.bits
  empty_iff := by
    obtain ⟨n, hsize, hzero⟩ := size_spec s
    refine ⟨n, hsize, ?_⟩
    rw [hzero]
    constructor
    · intro hempty i hi
      rw [getLsbD_of_empty hempty i] at hi
      cases hi
    · intro hall
      refine empty_eq_true.mpr (BitVec.eq_of_getLsbD_eq fun i hi => ?_)
      show s.nonEmptyBuckets.getLsbD i = (0#64).getLsbD i
      rw [BitVec.getLsbD_zero, Bool.eq_false_iff]
      exact fun hbit => (h.bits i hi).mp hbit (hall i hbit)
  earliest := by
    intro hempty
    have hne : s.nonEmptyBuckets ≠ 0 := fun hzero => by
      rw [empty_eq_true.mpr hzero] at hempty
      cases hempty
    obtain ⟨i, hlast, hbit, hmax⟩ := getLastSet_spec hne
    refine ⟨i, hlast, (h.bits i (BitVec.lt_of_getLsbD hbit)).mp hbit, fun t ht j hj u hu => ?_⟩
    have hset : s.nonEmptyBuckets.getLsbD j = true :=
      (h.bits j (h.lt_of_mem hu)).mpr (List.ne_nil_of_mem hu)
    exact h.earliest (Nat.lt_of_le_of_ne (hmax j hset) hj) ht hu

/-! ### `clear` -/

/-- The visited buckets are emptied. -/
theorem foldl_update_nil (visited : List Nat) (buckets : Nat → List Timer) (i : Nat) :
    visited.foldl (fun buckets i => Function.update buckets i []) buckets i
      = if i ∈ visited then [] else buckets i := by
  induction visited generalizing buckets with
  | nil => rfl
  | cons j visited ih =>
    rw [List.foldl_cons, ih]
    by_cases hmem : i ∈ visited
    · rw [if_pos hmem, if_pos (List.mem_cons_of_mem j hmem)]
    · rw [if_neg hmem]
      by_cases hij : i = j
      · rw [hij, Function.update_self, if_pos List.mem_cons_self]
      · rw [Function.update_of_ne hij, if_neg (List.not_mem_cons_of_ne_of_not_mem hij hmem)]

/-- `clear` empties the buckets that have a bit, and keeps the bits. -/
theorem clear_spec (s : TimerSet) : ∃ set, s.clear = .ok set ∧
    set.last = s.last ∧ set.nonEmptyBuckets = s.nonEmptyBuckets ∧
    ∀ i, set.buckets i = if s.nonEmptyBuckets.getLsbD i then [] else s.buckets i := by
  obtain ⟨visited, hvisit, -, hmem⟩ := forEachSet_spec s.nonEmptyBuckets 0
  refine ⟨{ s with
    buckets := visited.foldl (fun buckets i => Function.update buckets i []) s.buckets }, ?_, rfl, rfl,
    fun i => ?_⟩
  · rw [TimerSet.clear, hvisit]
    rfl
  refine (foldl_update_nil visited s.buckets i).trans ?_
  simp only [hmem i, Nat.zero_le, true_and]

/-- Without active timers the buckets are empty. -/
theorem Inv.buckets_nil (h : Inv s []) (i : Nat) : s.buckets i = [] := by
  refine List.eq_nil_iff_forall_not_mem.mpr fun t ht => ?_
  have hactive : t ∈ [] := (h.mem_active t).mpr (by rwa [h.indexed i t ht])
  cases hactive

/-- `clear` keeps the invariant when there is nothing to clear. -/
theorem Inv.clear {set : TimerSet} (h : Inv s []) (hclear : s.clear = .ok set) : Inv set [] := by
  obtain ⟨set', hclear', hlast, hbits, hbuckets⟩ := clear_spec s
  obtain rfl : set' = set := Except.ok.inj (hclear'.symm.trans hclear)
  have hnil : ∀ i, set'.buckets i = [] := fun i => by rw [hbuckets i, h.buckets_nil i, ite_self]
  constructor
  · rw [hlast]
    exact h.last_nonneg
  · intro i t ht
    rw [hnil i] at ht
    cases ht
  · intro i
    rw [hnil i]
    exact List.nodup_nil
  · intro t
    rw [hnil]
  · intro i hi
    rw [hbits, h.bits i hi, h.buckets_nil i, hnil i]
  · intro t ht
    cases ht
  · exact List.nodup_nil

/-- When the bits are in step after a `clear`, then there was nothing to clear. -/
theorem Inv.active_eq_nil {set : TimerSet} (h : Inv s active) (hclear : s.clear = .ok set)
    (hright : BitsRight set) : active = [] := by
  obtain ⟨set', hclear', -, hbits, hbuckets⟩ := clear_spec s
  obtain rfl : set' = set := Except.ok.inj (hclear'.symm.trans hclear)
  refine List.eq_nil_iff_forall_not_mem.mpr fun t ht => ?_
  have hmem := (h.mem_active t).mp ht
  have hlt := h.lt_of_mem hmem
  have hbit := (h.bits _ hlt).mpr (List.ne_nil_of_mem hmem)
  have hne := (hright.bits _ hlt).mp (by rw [hbits]; exact hbit)
  rw [hbuckets, if_pos hbit] at hne
  exact hne rfl

/-! ### Runs -/

open Session

/-- `clear` is called on a set without active timers only. -/
def ClearsNothing (s : Session) : SetCall → Prop
  | .clear => s.active = []
  | .call _ => True

/-- Every step keeps the invariant, a `clear` when it has nothing to clear. -/
theorem SessionInv.stepOrClear {s t : Session} {c : SetCall} (h : SessionInv s)
    (hok : ClearsNothing s c) (hstep : s.stepOrClear c = some t) : SessionInv t := by
  cases c with
  | call c => exact (h.step hstep).1
  | clear =>
    have hset := h.set
    rw [show s.active = [] from hok] at hset
    obtain ⟨set, hclear, hlast, -⟩ := clear_spec s.set
    rw [Session.stepOrClear, hclear] at hstep
    split at hstep
    · cases hstep
    · cases hstep
      exact ⟨hset.clear hclear, hlast.trans h.previous, h.returned_nodup, h.returned⟩

/-- A right mask after `clear` means that there was nothing to clear. -/
theorem SessionInv.clearsNothing {s t : Session} {c : SetCall} (h : SessionInv s)
    (hstep : s.stepOrClear c = some t) (hright : BitsRight t.set) : ClearsNothing s c := by
  cases c with
  | call c => trivial
  | clear =>
    obtain ⟨set, hclear, -⟩ := clear_spec s.set
    rw [Session.stepOrClear, hclear] at hstep
    split at hstep
    · cases hstep
    · cases hstep
      exact h.set.active_eq_nil hclear hright

/-- The bit set is in step with the buckets in every state of a run exactly when `clear` is called on
sets without active timers only. -/
theorem bitsRight_iff (cs : List SetCall) :
    Always stepOrClear (fun s => BitsRight s.set) Session.create cs ↔
      Guarded stepOrClear ClearsNothing Session.create cs :=
  always_iff_guarded_of_inv SessionInv (fun _ h => h.set.bitsRight)
    (fun _ _ _ h hok hstep => h.stepOrClear hok hstep)
    (fun _ _ _ h hstep hright => h.clearsNothing hstep hright) SessionInv.create cs

/-- A set with one timer is cleared. Its bucket is empty, and the bit of the bucket is set. -/
theorem not_bitsRight_cleared :
    ¬ Always stepOrClear (fun s => BitsRight s.set) Session.create
      [.call (.insert ⟨0, 5⟩), .clear] := by
  intro h
  have hright := ((h.2 _ rfl).2 _ rfl).bits 60 (by decide)
  exact absurd (hright.mp (by decide)) (by decide)

end Netstar.Proofs.Core.TimerSet
