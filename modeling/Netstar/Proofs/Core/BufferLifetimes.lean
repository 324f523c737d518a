import Netstar.Proofs.Core.CircularBuffer
import Netstar.Spec.Core.BufferLifetimes

/-!
# `Netstar.Proofs.Core.BufferLifetimes`: when a circular buffer has its objects in place

`Made b start P` says which slots hold an object, by their offset from a counter `start`: those at
the offsets in `P`. A slot has one offset below the capacity, so every construction, destruction and
move is a change of `P`, and a change of the counter turns the offsets around (`Made.shift`). A
buffer with `n` elements has `P` below `n` (`Full`).

The operations keep `Full`, but for one place. `erase` destroys the slots that it vacates in a loop
with `<` between two counters. When the counter wraps in between, the loop does nothing, and the
vacated slots keep their objects outside of `begin` and `end`.
-/

set_option autoImplicit false

namespace Netstar.Proofs.Core.BufferLifetimes

open Netstar.Lib
open Netstar.Spec.Core
open Netstar.Spec.Core.CircularBuffer (indices Call)
open Netstar.Spec.Core.BufferLifetimes
open Netstar.Proofs.Core.CircularBuffer (toNat_add_ofNat_mod mask_eq countFrom
  countFrom_succ add_ofNat_succ doubled_capacity log2ceil_spec log2ceil_undefined)

variable {α : Type} {b : CircularBuffer α} {start : UInt64} {P Q : Nat → Prop} {n : Nat}

/-- The slots with an object are those at the offsets in `P` from `start` on. -/
structure Made (b : CircularBuffer α) (start : UInt64) (P : Nat → Prop) : Prop where
  capacity : b.capacity.toNat = 0 ∨ ∃ k < 63, b.capacity.toNat = 2 ^ k
  length : b.storage.length = b.capacity.toNat
  made : ∀ i < b.capacity.toNat, b.storage[b.mask (start + UInt64.ofNat i)]? ≠ some .raw ↔ P i

/-- The buffer has `n` elements, and objects nowhere else. -/
structure Full (b : CircularBuffer α) (n : Nat) : Prop extends Made b b.first (· < n) where
  fits : n ≤ b.capacity.toNat
  last : b.last = b.first + UInt64.ofNat n

/-! ### One slot -/

/-- The destructor of an object that is there. -/
theorem destroy_eq {cells : List (Cell α)} {p : Nat} (hp : p < cells.length)
    (hmade : cells[p]? ≠ some .raw) : destroy cells p = .ok (cells.set p .raw) := by
  rw [destroy]
  rw [List.getElem?_eq_getElem hp] at hmade ⊢
  cases hcell : cells[p] with
  | raw => exact absurd (congrArg some hcell) hmade
  | live x => rfl
  | moved => rfl

/-- The constructor of an object where none is. -/
theorem construct_eq {cells : List (Cell α)} {p : Nat} (hraw : cells[p]? = some .raw)
    (c : Cell α) : construct cells p c = .ok (cells.set p c) := by
  rw [construct, hraw]

/-- An access to an object that is there. -/
theorem object_eq {cells : List (Cell α)} {p : Nat} (hp : p < cells.length)
    (hmade : cells[p]? ≠ some .raw) : ∃ c, object cells p = .ok c ∧ c ≠ .raw := by
  rw [object]
  rw [List.getElem?_eq_getElem hp] at hmade ⊢
  cases hcell : cells[p] with
  | raw => exact absurd (congrArg some hcell) hmade
  | live x => exact ⟨.live x, rfl, by simp⟩
  | moved => exact ⟨.moved, rfl, by simp⟩

/-- Storage without objects is freed. -/
theorem deallocate_eq {cells : List (Cell α)} (h : ∀ p < cells.length, cells[p]? = some .raw) :
    deallocate cells = .ok () := by
  rw [deallocate, if_pos]
  rw [List.all_eq_true]
  intro c hc
  obtain ⟨p, hp, hget⟩ := List.getElem_of_mem hc
  have hraw := h p hp
  rw [List.getElem?_eq_getElem hp, hget] at hraw
  rw [Option.some.inj hraw]

namespace Made

/-- Only the places inside the storage matter. -/
theorem congr (h : Made b start P) (hPQ : ∀ i < b.capacity.toNat, P i ↔ Q i) : Made b start Q where
  capacity := h.capacity
  length := h.length
  made := fun i hi => (h.made i hi).trans (hPQ i hi)

/-- The storage has at most `2^62` places. -/
theorem capacity_lt (h : Made b start P) : b.capacity.toNat < 2 ^ 63 := by
  rcases h.capacity with hzero | ⟨k, hk, hcap⟩
  · rw [hzero]
    decide
  · rw [hcap]
    exact Nat.pow_lt_pow_right (by decide) hk

/-- The slot at an offset. -/
theorem mask_add (h : Made b start P) (hpos : 0 < b.capacity.toNat) (s : UInt64) (i : Nat) :
    b.mask (s + UInt64.ofNat i) = (s.toNat + i) % b.capacity.toNat := by
  rcases h.capacity with hzero | ⟨k, hk, hcap⟩
  · exact absurd hpos (by omega)
  · rw [mask_eq hcap, toNat_add_ofNat_mod _ _ (by omega), hcap]

/-- Every position has a place in the storage. -/
theorem slot_lt (h : Made b start P) {i : Nat} (hi : i < b.capacity.toNat) :
    b.mask (start + UInt64.ofNat i) < b.storage.length := by
  rw [h.mask_add (by omega), h.length]
  exact Nat.mod_lt _ (by omega)

/-- Two positions have two places. -/
theorem slot_inj (h : Made b start P) {i j : Nat} (hi : i < b.capacity.toNat)
    (hj : j < b.capacity.toNat)
    (heq : b.mask (start + UInt64.ofNat i) = b.mask (start + UInt64.ofNat j)) : i = j := by
  rw [h.mask_add (by omega), h.mask_add (by omega)] at heq
  exact Ring.slot_inj hi hj heq

/-- Every slot is at some offset. -/
theorem exists_offset (h : Made b start P) {p : Nat} (hp : p < b.storage.length) :
    ∃ i < b.capacity.toNat, b.mask (start + UInt64.ofNat i) = p := by
  rw [h.length] at hp
  have hmod := Nat.mod_lt start.toNat (Nat.lt_of_le_of_lt (Nat.zero_le p) hp)
  rcases Nat.lt_or_ge p (start.toNat % b.capacity.toNat) with hlt | hge
  · refine ⟨p + b.capacity.toNat - start.toNat % b.capacity.toNat, by omega, ?_⟩
    rw [h.mask_add (by omega), ← Nat.mod_add_mod, show ∀ a c : Nat, a < c → a + (p + c - a) = p + c
      by omega, Nat.add_mod_right, Nat.mod_eq_of_lt hp]
    exact hmod
  · refine ⟨p - start.toNat % b.capacity.toNat, by omega, ?_⟩
    rw [h.mask_add (by omega), ← Nat.mod_add_mod, Nat.add_sub_cancel' hge, Nat.mod_eq_of_lt hp]

/-- One slot is written. -/
theorem set (h : Made b start P) {j : Nat} (hj : j < b.capacity.toNat) (c : Cell α) :
    Made { b with storage := b.storage.set (b.mask (start + UInt64.ofNat j)) c } start
      (fun i => if i = j then c ≠ .raw else P i) where
  capacity := h.capacity
  length := by
    rw [← h.length]
    exact List.length_set
  made := by
    intro i hi
    show (b.storage.set (b.mask (start + UInt64.ofNat j)) c)[b.mask (start + UInt64.ofNat i)]? ≠ _ ↔ _
    by_cases heq : i = j
    · subst heq
      rw [List.getElem?_set_self (h.slot_lt hi), if_pos rfl]
      simp
    · rw [List.getElem?_set_ne fun hslot => heq (h.slot_inj hi hj hslot.symm), if_neg heq]
      exact h.made i hi

/-- The destructor at a position. -/
theorem destroy (h : Made b start P) {j : Nat} (hj : j < b.capacity.toNat) (hP : P j) :
    ∃ cells, BufferLifetimes.destroy b.storage (b.mask (start + UInt64.ofNat j)) = .ok cells ∧
      Made { b with storage := cells } start (fun i => P i ∧ i ≠ j) := by
  refine ⟨_, destroy_eq (h.slot_lt hj) ((h.made j hj).mpr hP), (h.set hj .raw).congr fun i _ => ?_⟩
  by_cases heq : i = j <;> simp [heq]

/-- The constructor at a position. -/
theorem construct (h : Made b start P) {j : Nat} (hj : j < b.capacity.toNat) (hP : ¬ P j)
    {c : Cell α} (hc : c ≠ .raw) :
    ∃ cells, BufferLifetimes.construct b.storage (b.mask (start + UInt64.ofNat j)) c = .ok cells ∧
      Made { b with storage := cells } start (fun i => P i ∨ i = j) := by
  have hraw := not_not.mp (mt (h.made j hj).mp hP)
  refine ⟨_, construct_eq hraw c, (h.set hj c).congr fun i _ => ?_⟩
  by_cases heq : i = j <;> simp [heq, hc]

/-- The move assignment from one position to another one. -/
theorem assign (h : Made b start P) {s t : Nat} (hs : s < b.capacity.toNat)
    (ht : t < b.capacity.toNat) (hPs : P s) (hPt : P t) :
    ∃ cells, BufferLifetimes.assign b.storage (b.mask (start + UInt64.ofNat s))
        (b.mask (start + UInt64.ofNat t)) = .ok cells ∧
      Made { b with storage := cells } start P := by
  obtain ⟨c, hsource, hc⟩ := object_eq (h.slot_lt hs) ((h.made s hs).mpr hPs)
  obtain ⟨d, htarget, -⟩ := object_eq (h.slot_lt ht) ((h.made t ht).mpr hPt)
  refine ⟨_, ?_, ((h.set ht c).set (j := s) hs .moved).congr fun i _ => ?_⟩
  · rw [BufferLifetimes.assign, hsource, ok_bind, htarget, ok_bind]
    rfl
  · by_cases his : i = s
    · simp [his, hPs]
    · by_cases hit : i = t <;> simp [his, hit, hc, hPt]

/-- The offsets from another counter. -/
theorem shift (h : Made b start P) {s : UInt64} {d : Nat}
    (hs : s.toNat % b.capacity.toNat = (start.toNat + d) % b.capacity.toNat) :
    Made b s (fun i => P ((d + i) % b.capacity.toNat)) where
  capacity := h.capacity
  length := h.length
  made := by
    intro i hi
    have hpos : 0 < b.capacity.toNat := by omega
    have hslot : b.mask (s + UInt64.ofNat i) =
        b.mask (start + UInt64.ofNat ((d + i) % b.capacity.toNat)) := by
      rw [h.mask_add hpos, h.mask_add hpos, Nat.add_mod_mod, ← Nat.add_assoc, ← Nat.mod_add_mod, hs,
        Nat.mod_add_mod]
    rw [hslot]
    exact h.made _ (Nat.mod_lt _ hpos)

end Made

/-- The place at the start. -/
theorem add_zero_ofNat (s : UInt64) : s + UInt64.ofNat 0 = s := by
  simp

namespace Full

/-- A new buffer is empty. -/
theorem create : Full (CircularBuffer.create : CircularBuffer α) 0 where
  capacity := .inl rfl
  length := rfl
  made := fun i hi => absurd hi (Nat.not_lt_zero i)
  fits := Nat.le_refl 0
  last := rfl

/-- A buffer holds fewer than `2^63` objects. -/
theorem lt (h : Full b n) : n < 2 ^ 63 := Nat.lt_of_le_of_lt h.fits h.capacity_lt

/-- The indices give the number of objects. -/
theorem size_eq (h : Full b n) : (b.last - b.first).toNat = n := by
  have hlt := h.lt
  rw [h.last, show b.first + UInt64.ofNat n - b.first = UInt64.ofNat n by grind]
  exact UInt64.toNat_ofNat_of_lt' (show _ < 2 ^ 64 by omega)

/-- The indices from `begin` to `end`. -/
theorem indices_eq (h : Full b n) : indices b.first b.last = countFrom b.first n := by
  rw [indices, h.size_eq, countFrom]

/-- The first `d` slots were vacated. -/
theorem advance {d : Nat} (hd : d ≤ n) (h : Made b b.first (fun i => d ≤ i ∧ i < n))
    (hfits : n ≤ b.capacity.toNat) (hlast : b.last = b.first + UInt64.ofNat n) :
    Full { b with first := b.first + UInt64.ofNat d } (n - d) where
  capacity := h.capacity
  length := h.length
  made := by
    have hshift : (b.first + UInt64.ofNat d).toNat % b.capacity.toNat =
        (b.first.toNat + d) % b.capacity.toNat := by
      rcases h.capacity with hzero | ⟨k, hk, hcap⟩
      · obtain rfl : d = 0 := by omega
        rw [add_zero_ofNat]
        rfl
      · rw [hcap, toNat_add_ofNat_mod _ _ (by omega)]
    refine fun i hi => ((h.shift hshift).made i hi).trans ?_
    -- An offset that goes around comes back among the vacated slots.
    rcases Nat.lt_or_ge (d + i) b.capacity.toNat with hlt | hge
    · rw [Nat.mod_eq_of_lt hlt]
      omega
    · have hi' : i < b.capacity.toNat := hi
      rw [Nat.mod_eq_sub_mod hge, Nat.mod_eq_of_lt (by omega)]
      omega
  fits := by
    show n - d ≤ b.capacity.toNat
    omega
  last := by
    show b.last = b.first + UInt64.ofNat d + UInt64.ofNat (n - d)
    rw [hlast, UInt64.ofNat_sub hd]
    grind

/-- The last slots were vacated. -/
theorem truncate {m : Nat} (hm : m ≤ n) (h : Made b b.first (· < m))
    (hfits : n ≤ b.capacity.toNat) : Full { b with last := b.first + UInt64.ofNat m } m where
  toMade := ⟨h.capacity, h.length, h.made⟩
  fits := hm.trans hfits
  last := rfl

/-- Exactly the slots from `begin` to `end` hold an object. -/
theorem constructed (h : Full b n) : Constructed b := by
  rw [Constructed, h.indices_eq]
  refine ⟨fun idx hidx => ?_, fun p hp => ?_⟩
  · obtain ⟨i, hi, rfl⟩ := List.mem_map.mp hidx
    exact h.slot_lt (Nat.lt_of_lt_of_le (List.mem_range.mp hi) h.fits)
  · obtain ⟨i, hi, rfl⟩ := h.exists_offset hp
    rw [h.made i hi]
    constructor
    · exact fun hlt => ⟨_, List.mem_map.mpr ⟨i, List.mem_range.mpr hlt, rfl⟩, rfl⟩
    · rintro ⟨idx, hidx, hslot⟩
      obtain ⟨j, hj, rfl⟩ := List.mem_map.mp hidx
      have hj' := List.mem_range.mp hj
      rwa [← h.slot_inj (Nat.lt_of_lt_of_le hj' h.fits) hi hslot]

/-! ### Pushes and pops -/

/-- A pop at the front destroys one object. -/
theorem popFront (h : Full b (n + 1)) :
    ∃ b', BufferLifetimes.popFront b = .ok b' ∧ Full b' n := by
  have hfits := h.fits
  obtain ⟨cells, hdestroy, hmade⟩ := h.destroy (j := 0) (by omega) (Nat.succ_pos n)
  rw [add_zero_ofNat] at hdestroy
  have hleft : Made { b with storage := cells } b.first (fun i => 1 ≤ i ∧ i < n + 1) :=
    hmade.congr fun i _ => by omega
  refine ⟨_, ?_, Full.advance (b := { b with storage := cells }) (Nat.le_add_left 1 n) hleft hfits h.last⟩
  rw [BufferLifetimes.popFront, hdestroy]
  rfl

/-- A pop at the back destroys one object. -/
theorem popBack (h : Full b (n + 1)) :
    ∃ b', BufferLifetimes.popBack b = .ok b' ∧ Full b' n := by
  have hfits := h.fits
  have hlast : b.last - 1 = b.first + UInt64.ofNat n := by
    rw [h.last, add_ofNat_succ]
    grind
  obtain ⟨cells, hdestroy, hmade⟩ := h.destroy (j := n) (by omega) (Nat.lt_succ_self n)
  have hleft : Made { b with storage := cells } b.first (· < n) := hmade.congr fun i _ => by omega
  refine ⟨_, ?_, Full.truncate (b := { b with storage := cells }) (Nat.le_succ n) hleft hfits⟩
  rw [BufferLifetimes.popBack, hlast, hdestroy]
  rfl

/-- The place behind the last object is free. -/
theorem constructBack (h : Full b n) (hroom : n < b.capacity.toNat) (x : α) :
    ∃ cells, construct b.storage (b.mask b.last) (.live x) = .ok cells ∧
      Full { b with storage := cells, last := b.last + 1 } (n + 1) := by
  obtain ⟨cells, hconstruct, hmade⟩ :=
    h.toMade.construct hroom (Nat.lt_irrefl n) (c := .live x) (by simp)
  refine ⟨cells, by rw [h.last]; exact hconstruct, ?_, hroom, ?_⟩
  · have hmore : Made { b with storage := cells } b.first (· < n + 1) :=
      hmade.congr fun i _ => by omega
    exact ⟨hmore.capacity, hmore.length, hmore.made⟩
  · show b.last + 1 = b.first + UInt64.ofNat (n + 1)
    rw [h.last, add_ofNat_succ]

/-- The place before the first object is free. -/
theorem constructFront (h : Full b n) (hroom : n < b.capacity.toNat) (x : α) :
    ∃ cells, construct b.storage (b.mask (b.first - 1)) (.live x) = .ok cells ∧
      Full { b with storage := cells, first := b.first - 1 } (n + 1) := by
  obtain ⟨c, hc⟩ : ∃ c, b.capacity.toNat = c + 1 := ⟨b.capacity.toNat - 1, by omega⟩
  -- The slot before the first one is the last one of the ring.
  have hbefore : (b.first - 1).toNat % b.capacity.toNat =
      (b.first.toNat + c) % b.capacity.toNat := by
    obtain ⟨k, hk, hcap⟩ := h.capacity.resolve_left (by omega)
    have hnext := toNat_add_ofNat_mod (b.first - 1) 1 (k := k) (by omega)
    rw [show b.first - 1 + UInt64.ofNat 1 = b.first by
      show b.first - 1 + 1 = b.first
      grind, ← hcap] at hnext
    rw [← Nat.mod_add_mod, hnext, Nat.mod_add_mod, Nat.add_assoc, Nat.add_comm 1, ← hc,
      Nat.add_mod_right]
  have hslot : b.mask (b.first - 1) = b.mask (b.first + UInt64.ofNat c) := by
    have hzero := h.mask_add (by omega) (b.first - 1) 0
    rw [add_zero_ofNat] at hzero
    rw [hzero, h.mask_add (by omega), Nat.add_zero, hbefore]
  obtain ⟨cells, hconstruct, hmade⟩ :=
    h.toMade.construct (j := c) (by omega) (by omega) (c := .live x) (by simp)
  refine ⟨cells, by rw [hslot]; exact hconstruct, ?_, hroom, ?_⟩
  · have hmore : Made { b with storage := cells } (b.first - 1) (· < n + 1) := by
      refine (hmade.shift hbefore).congr fun i hi => ?_
      have hi' : i < b.capacity.toNat := hi
      show (c + i) % b.capacity.toNat < n ∨ (c + i) % b.capacity.toNat = c ↔ i < n + 1
      rcases Nat.eq_zero_or_pos i with rfl | hpos
      · rw [Nat.add_zero, Nat.mod_eq_of_lt (by omega)]
        omega
      · rw [Nat.mod_eq_sub_mod (by omega), Nat.mod_eq_of_lt (by omega)]
        omega
    exact ⟨hmore.capacity, hmore.length, hmore.made⟩
  · show b.last = b.first - 1 + UInt64.ofNat (n + 1)
    rw [h.last, add_ofNat_succ]
    grind

end Full

/-! ### Destruction of a range -/

/-- The objects at the offsets from `o` on are destroyed. -/
theorem destroyAll_spec {m o : Nat} (h : Made b start P) (hfits : o + m ≤ b.capacity.toNat)
    (hP : ∀ i, o ≤ i → i < o + m → P i) :
    ∃ cells, destroyAll b (countFrom (start + UInt64.ofNat o) m) = .ok { b with storage := cells } ∧
      Made { b with storage := cells } start (fun i => P i ∧ ¬ (o ≤ i ∧ i < o + m)) := by
  induction m generalizing b P o with
  | zero => exact ⟨b.storage, rfl, h.congr fun i _ => (and_iff_left (by omega)).symm⟩
  | succ m ih =>
    obtain ⟨cells₁, hdestroy, hmade⟩ := h.destroy (j := o) (by omega) (hP o (by omega) (by omega))
    obtain ⟨cells, hloop, hleft⟩ := @ih { b with storage := cells₁ } _ (o + 1) hmade
      (by show o + 1 + m ≤ b.capacity.toNat; omega)
      (fun i hi hlt => ⟨hP i (by omega) (by omega), by omega⟩)
    refine ⟨cells, ?_, hleft.congr fun i _ => ?_⟩
    · rw [countFrom_succ, destroyAll, hdestroy, ← add_ofNat_succ]
      exact hloop
    · exact and_assoc.trans (and_congr_right fun _ => by omega)

/-- Storage without objects. -/
theorem Made.deallocate (h : Made b start P) (hP : ∀ i < b.capacity.toNat, ¬ P i) :
    BufferLifetimes.deallocate b.storage = .ok () := by
  refine deallocate_eq fun p hp => ?_
  obtain ⟨i, hi, rfl⟩ := h.exists_offset hp
  exact not_not.mp (mt (h.made i hi).mp (hP i hi))

/-- All objects of a buffer are destroyed. -/
theorem Full.destroyAll (h : Full b n) : ∃ cells,
    BufferLifetimes.destroyAll b (indices b.first b.last) = .ok { b with storage := cells } ∧
      BufferLifetimes.deallocate cells = .ok () := by
  obtain ⟨cells, hdestroy, hmade⟩ := destroyAll_spec (o := 0) (m := n) h.toMade
    (by have hfits := h.fits; omega) (fun i _ hi => by omega)
  rw [add_zero_ofNat, ← h.indices_eq] at hdestroy
  exact ⟨cells, hdestroy, hmade.deallocate fun i _ => by omega⟩

/-- The destructor destroys every object and frees the storage. -/
theorem Full.destructor (h : Full b n) : BufferLifetimes.destructor b = .ok () := by
  obtain ⟨cells, hdestroy, hfree⟩ := h.destroyAll
  rw [BufferLifetimes.destructor, hdestroy]
  exact hfree

/-! ### Expansion -/

/-- The first `p` places of the new storage hold an object. -/
def Begun (fresh : List (Cell α)) (p : Nat) : Prop :=
  ∀ q < fresh.length, fresh[q]? ≠ some .raw ↔ q < p

/-- One more object is made in the new storage. -/
theorem Begun.construct {fresh : List (Cell α)} {p : Nat} (h : Begun fresh p)
    (hp : p < fresh.length) {c : Cell α} (hc : c ≠ .raw) :
    ∃ fresh', construct fresh p c = .ok fresh' ∧ Begun fresh' (p + 1) ∧
      fresh'.length = fresh.length := by
  have hraw := not_not.mp (mt (h p hp).mp (Nat.lt_irrefl p))
  refine ⟨_, construct_eq hraw c, fun q hq => ?_, List.length_set⟩
  rw [List.length_set] at hq
  by_cases heq : q = p
  · subst heq
    rw [List.getElem?_set_self hq]
    simp [hc]
  · rw [List.getElem?_set_ne (Ne.symm heq), h q hq]
    omega

/-- The `catch` block leaves no object in the new storage. -/
theorem Begun.undo {fresh : List (Cell α)} {p : Nat} (h : Begun fresh p) (hp : p ≤ fresh.length) :
    ∃ fresh', BufferLifetimes.undo fresh p = .ok fresh' ∧
      BufferLifetimes.deallocate fresh' = .ok () := by
  induction p generalizing fresh with
  | zero =>
    refine ⟨fresh, rfl, deallocate_eq fun q hq => ?_⟩
    exact not_not.mp (mt (h q hq).mp (Nat.not_lt_zero q))
  | succ p ih =>
    have hdestroy := destroy_eq hp ((h p hp).mpr (Nat.lt_succ_self p))
    have hless : Begun (fresh.set p .raw) p := by
      intro q hq
      rw [List.length_set] at hq
      by_cases heq : q = p
      · subst heq
        rw [List.getElem?_set_self hq]
        simp
      · rw [List.getElem?_set_ne (Ne.symm heq), h q hq]
        omega
    obtain ⟨fresh', hundo, hfree⟩ := ih hless (by rw [List.length_set]; omega)
    refine ⟨fresh', ?_, hfree⟩
    rw [BufferLifetimes.undo, hdestroy]
    exact hundo

/-- The first pass for elements that are moved: each old object is destroyed at once. -/
theorem transferPass1_move {env : Env} (henv : env.nothrowMove = true) {fresh : List (Cell α)}
    {p m o : Nat} (h : Made b start P) (hfits : o + m ≤ b.capacity.toNat)
    (hP : ∀ i, o ≤ i → i < o + m → P i) (hfresh : Begun fresh p) (hroom : p + m ≤ fresh.length) :
    ∃ cells fresh',
      transferPass1 env b fresh p (countFrom (start + UInt64.ofNat o) m) =
        .ok ({ b with storage := cells }, fresh', p + m, false) ∧
      Made { b with storage := cells } start (fun i => P i ∧ ¬ (o ≤ i ∧ i < o + m)) ∧
      Begun fresh' (p + m) ∧ fresh'.length = fresh.length := by
  induction m generalizing b P o fresh p with
  | zero => exact ⟨b.storage, fresh, rfl, h.congr fun i _ => (and_iff_left (by omega)).symm, hfresh, rfl⟩
  | succ m ih =>
    have ho : o < b.capacity.toNat := by omega
    have hPo := hP o (by omega) (by omega)
    obtain ⟨c, hobject, hc⟩ := object_eq (h.slot_lt ho) ((h.made o ho).mpr hPo)
    obtain ⟨fresh₁, hconstruct, hbegun, hlen₁⟩ := hfresh.construct (by omega) hc
    obtain ⟨cells₁, hdestroy, hmade⟩ := h.destroy ho hPo
    obtain ⟨cells, fresh', hloop, hleft, hbegun', hlen⟩ :=
      @ih { b with storage := cells₁ } _ fresh₁ (p + 1) (o + 1) hmade
        (by show o + 1 + m ≤ b.capacity.toNat; omega)
        (fun i hi hlt => ⟨hP i (by omega) (by omega), by omega⟩) hbegun (by omega)
    rw [show p + 1 + m = p + (m + 1) by omega] at hloop hbegun'
    refine ⟨cells, fresh', ?_, hleft.congr fun i _ => ?_, hbegun', hlen.trans hlen₁⟩
    · rw [countFrom_succ, transferPass1, hobject, ok_bind, if_pos henv, hconstruct, ok_bind, hdestroy,
        ok_bind, ← add_ofNat_succ]
      exact hloop
    · exact and_assoc.trans (and_congr_right fun _ => by omega)

/-- The first pass for elements that are copied: the old objects stay, and it may stop at any of
them. -/
theorem transferPass1_copy {env : Env} (henv : ¬ env.nothrowMove = true) {fresh : List (Cell α)}
    {p m o : Nat} (h : Made b start P) (hfits : o + m ≤ b.capacity.toNat)
    (hP : ∀ i, o ≤ i → i < o + m → P i) (hfresh : Begun fresh p) (hroom : p + m ≤ fresh.length) :
    ∃ fresh' p' threw,
      transferPass1 env b fresh p (countFrom (start + UInt64.ofNat o) m) =
        .ok (b, fresh', p', threw) ∧
      Begun fresh' p' ∧ fresh'.length = fresh.length ∧ p' ≤ p + m ∧
      (threw = false → p' = p + m) := by
  induction m generalizing o fresh p with
  | zero => exact ⟨fresh, p, false, rfl, hfresh, rfl, Nat.le_refl p, fun _ => rfl⟩
  | succ m ih =>
    have ho : o < b.capacity.toNat := by omega
    obtain ⟨c, hobject, hc⟩ :=
      object_eq (h.slot_lt ho) ((h.made o ho).mpr (hP o (by omega) (by omega)))
    rw [countFrom_succ, transferPass1, hobject, ok_bind, if_neg henv]
    by_cases hthrow : env.copyThrowsAt = some p
    · rw [if_pos hthrow]
      exact ⟨fresh, p, true, rfl, hfresh, rfl, Nat.le_add_right _ _, (fun hfalse => nomatch hfalse)⟩
    · obtain ⟨fresh₁, hconstruct, hbegun, hlen₁⟩ := hfresh.construct (by omega) hc
      obtain ⟨fresh', p', threw, hloop, hbegun', hlen, hle, hall⟩ :=
        @ih fresh₁ (p + 1) (o + 1) (by omega) (fun i hi hlt => hP i (by omega) (by omega)) hbegun
          (by omega)
      refine ⟨fresh', p', threw, ?_, hbegun', hlen.trans hlen₁, by omega, fun ht => ?_⟩
      · rw [if_neg hthrow, hconstruct, ok_bind, ← add_ofNat_succ]
        exact hloop
      · rw [hall ht]
        omega

/-- A buffer on new storage. -/
theorem full_fresh {fresh : List (Cell α)} {newCap : UInt64} {k : Nat} (hk : k < 63)
    (hcap : newCap.toNat = 2 ^ k) (hlen : fresh.length = newCap.toNat) (hfresh : Begun fresh n)
    (hn : n ≤ 2 ^ k) : Full ⟨fresh, 0, UInt64.ofNat n, newCap⟩ n where
  capacity := .inr ⟨k, hk, hcap⟩
  length := hlen
  made := by
    intro i hi
    have hi' : i < newCap.toNat := hi
    have hmask := mask_eq (b := ⟨fresh, 0, UInt64.ofNat n, newCap⟩) hcap (0 + UInt64.ofNat i)
    have hpow : 2 ^ k < 2 ^ 63 := Nat.pow_lt_pow_right (by decide) hk
    rw [show (0 : UInt64) + UInt64.ofNat i = UInt64.ofNat i by simp,
      UInt64.toNat_ofNat_of_lt' (show _ < 2 ^ 64 by omega), Nat.mod_eq_of_lt (hcap ▸ hi')] at hmask
    show fresh[CircularBuffer.mask _ (0 + UInt64.ofNat i)]? ≠ _ ↔ _
    rw [show (0 : UInt64) + UInt64.ofNat i = UInt64.ofNat i by simp, hmask]
    exact hfresh i (by omega)
  fits := by
    show n ≤ newCap.toNat
    rw [hcap]
    exact hn
  last := by simp

/-- An expansion breaks no rule, also when it throws. -/
theorem expandTo_spec (env : Env) {newCap : UInt64} (h : Full b n) {k : Nat}
    (hcap : newCap.toNat = 2 ^ k) (hroom : n ≤ 2 ^ k) :
    ∃ b' threw, expandTo env b newCap = .ok (b', threw) ∧ Full b' n ∧
      (threw = false → b'.capacity = newCap) := by
  rw [expandTo]
  by_cases halloc : (env.badAlloc || decide (ptrdiffMax < newCap)) = true
  · exact ⟨b, true, by rw [if_pos halloc]; rfl, h, (fun hfalse => nomatch hfalse)⟩
  · have hk : k < 63 := by
      have hle : newCap.toNat ≤ 2 ^ 63 - 1 := by
        simp only [Bool.or_eq_true, decide_eq_true_eq, not_or, UInt64.not_lt] at halloc
        exact UInt64.le_iff_toNat_le.mp halloc.2
      rw [hcap] at hle
      exact (Nat.pow_lt_pow_iff_right (by decide)).mp (Nat.lt_of_le_of_lt hle (by decide))
    have hfits := h.fits
    have hbegun : Begun (List.replicate newCap.toNat (Cell.raw : Cell α)) 0 := by
      intro q hq
      rw [List.length_replicate] at hq
      rw [List.getElem?_replicate, if_pos hq]
      simp
    have hlen : (List.replicate newCap.toNat (Cell.raw : Cell α)).length = newCap.toNat :=
      List.length_replicate
    have hbelow : ∀ i, 0 ≤ i → i < 0 + n → i < n := fun i _ hi => by omega
    simp only [if_neg halloc]
    -- A move that cannot throw destroys the old objects in the first pass, a copy in the second.
    by_cases hmove : env.nothrowMove = true
    · obtain ⟨cells, fresh, hpass, hleft, hfresh, hlen'⟩ :=
        transferPass1_move hmove (o := 0) (m := n) h.toMade (by omega) hbelow hbegun (by omega)
      rw [add_zero_ofNat, ← h.indices_eq, Nat.zero_add] at hpass
      rw [Nat.zero_add] at hfresh
      have hfree : deallocate cells = .ok () := hleft.deallocate fun i _ => by omega
      refine ⟨_, false, ?_, full_fresh hk hcap (hlen'.trans hlen) hfresh hroom, fun _ => rfl⟩
      rw [hpass, ok_bind]
      show ((transferPass2 env { b with storage := cells } (indices b.first b.last)) >>= _) = _
      rw [transferPass2, if_pos hmove, ok_bind, hfree]
      rfl
    · obtain ⟨fresh, p, threw, hpass, hfresh, hlen', hle, hall⟩ :=
        transferPass1_copy hmove (o := 0) (m := n) h.toMade (by omega) hbelow hbegun (by omega)
      rw [add_zero_ofNat, ← h.indices_eq] at hpass
      cases threw with
      -- A copy threw: the new objects are destroyed, and the old buffer is as it was.
      | true =>
        obtain ⟨fresh', hundo, hfree⟩ := hfresh.undo (by omega)
        refine ⟨b, true, ?_, h, (fun hfalse => nomatch hfalse)⟩
        rw [hpass, ok_bind]
        show (undo fresh p >>= _) = _
        rw [hundo, ok_bind, hfree]
        rfl
      | false =>
        obtain rfl : p = 0 + n := hall rfl
        rw [Nat.zero_add] at hfresh hpass
        obtain ⟨cells, hdestroy, hfree⟩ := h.destroyAll
        refine ⟨_, false, ?_, full_fresh hk hcap (hlen'.trans hlen) hfresh hroom, fun _ => rfl⟩
        rw [hpass, ok_bind]
        show ((transferPass2 env b (indices b.first b.last)) >>= _) = _
        rw [transferPass2, if_neg hmove, hdestroy, ok_bind, hfree]
        rfl

/-- After `maybe_expand` there is room for one more object, or it threw. -/
theorem maybeExpand_spec (env : Env) (h : Full b n) :
    ∃ b' threw, maybeExpand env b = .ok (b', threw) ∧ Full b' n ∧
      (threw = false → n < b'.capacity.toNat) := by
  have hfits := h.fits
  have hlt := h.lt
  have hsize : (b.last - b.first + 1).toNat = n + 1 := by
    rw [UInt64.toNat_add, h.size_eq, UInt64.toNat_one]
    omega
  rw [maybeExpand]
  by_cases hfull : b.capacity < b.last - b.first + 1
  · rw [if_pos hfull, expand]
    have hfull' := UInt64.lt_iff_toNat_lt.mp hfull
    rw [hsize] at hfull'
    obtain ⟨k, hcap, hgrow⟩ := doubled_capacity h.capacity
    obtain ⟨b', threw, hexpand, hnew, hcapacity⟩ := expandTo_spec env h hcap (by omega)
    refine ⟨b', threw, hexpand, hnew, fun ht => ?_⟩
    rw [hcapacity ht, hcap]
    omega
  · rw [if_neg hfull]
    refine ⟨b, false, rfl, h, fun _ => ?_⟩
    have hnot := UInt64.le_iff_toNat_le.mp (UInt64.not_lt.mp hfull)
    omega

/-- `reserve` moves the objects to new storage, or it throws and keeps them. -/
theorem reserve_spec (env : Env) {size : UInt64} (h : Full b n)
    (hsize : b.capacity < size → size ≠ 1 ∧ size.toNat ≤ 2 ^ 63) :
    ∃ b' threw, reserve env b size = .ok (b', threw) ∧ Full b' n := by
  rw [reserve]
  by_cases hlt : b.capacity < size
  · obtain ⟨hone, hle⟩ := hsize hlt
    have hlt' := UInt64.lt_iff_toNat_lt.mp hlt
    have hne : size.toNat ≠ 1 := fun heq => hone (UInt64.toNat_inj.mp heq)
    obtain ⟨k, newCap, hlog, hshift, hcap, hgrow⟩ := log2ceil_spec (by omega) hle
    have hfits := h.fits
    obtain ⟨b', threw, hexpand, hnew, -⟩ := expandTo_spec env h hcap (by omega)
    refine ⟨b', threw, ?_, hnew⟩
    rw [if_pos hlt, hlog, ok_bind, hshift]
    exact hexpand
  · exact ⟨b, false, by rw [if_neg hlt]; rfl, h⟩

/-- A size that rounds up to no capacity makes `reserve` misuse its storage. -/
theorem reserve_misuse (env : Env) {size : UInt64} (hlt : b.capacity < size)
    (hsize : ¬ (size ≠ 1 ∧ size.toNat ≤ 2 ^ 63)) : ∃ e, reserve env b size = .error e := by
  have hlt' := UInt64.lt_iff_toNat_lt.mp hlt
  obtain ⟨e, herror⟩ := log2ceil_undefined (by omega) hsize
  refine ⟨.undefined e, ?_⟩
  rw [reserve, if_pos hlt, herror]
  rfl

/-- A push at the back makes one object, or none when it throws. -/
theorem pushBack_spec (env : Env) (x : α) (h : Full b n) :
    ∃ b' threw m, pushBack env b x = .ok (b', threw) ∧ Full b' m := by
  obtain ⟨b₁, threw, hexpand, hfull, hroom⟩ := maybeExpand_spec env h
  rw [pushBack, hexpand, ok_bind]
  dsimp only
  by_cases hthrow : (threw || env.ctorThrows) = true
  · exact ⟨b₁, true, n, by rw [if_pos hthrow]; rfl, hfull⟩
  · have hnot : threw = false := by
      cases threw with
      | false => rfl
      | true => exact absurd rfl hthrow
    obtain ⟨cells, hconstruct, hmore⟩ := hfull.constructBack (hroom hnot) x
    exact ⟨_, false, n + 1, by rw [if_neg hthrow, hconstruct]; rfl, hmore⟩

/-- A push at the front makes one object, or none when it throws. -/
theorem pushFront_spec (env : Env) (x : α) (h : Full b n) :
    ∃ b' threw m, pushFront env b x = .ok (b', threw) ∧ Full b' m := by
  obtain ⟨b₁, threw, hexpand, hfull, hroom⟩ := maybeExpand_spec env h
  rw [pushFront, hexpand, ok_bind]
  dsimp only
  by_cases hthrow : (threw || env.ctorThrows) = true
  · exact ⟨b₁, true, n, by rw [if_pos hthrow]; rfl, hfull⟩
  · have hnot : threw = false := by
      cases threw with
      | false => rfl
      | true => exact absurd rfl hthrow
    obtain ⟨cells, hconstruct, hmore⟩ := hfull.constructFront (hroom hnot) x
    exact ⟨_, false, n + 1, by rw [if_neg hthrow, hconstruct]; rfl, hmore⟩

/-! ### Erase -/

/-- Moves between slots with objects leave objects in both. -/
theorem moveBackward_spec {m s t : Nat} (h : Made b start P) (hm : m ≤ s) (hst : s ≤ t)
    (ht : t ≤ b.capacity.toNat) (hP : ∀ i < t, P i) :
    ∃ cells, moveBackward b (start + UInt64.ofNat s) (start + UInt64.ofNat t) m =
        .ok { b with storage := cells } ∧ Made { b with storage := cells } start P := by
  induction m generalizing b s t with
  | zero => exact ⟨b.storage, rfl, h⟩
  | succ m ih =>
    obtain ⟨s, rfl⟩ : ∃ s', s = s' + 1 := ⟨s - 1, by omega⟩
    obtain ⟨t, rfl⟩ : ∃ t', t = t' + 1 := ⟨t - 1, by omega⟩
    have hpred : ∀ k : Nat, start + UInt64.ofNat (k + 1) - 1 = start + UInt64.ofNat k := by
      intro k
      rw [add_ofNat_succ]
      grind
    obtain ⟨cells₁, hassign, hmade⟩ := h.assign (s := s) (t := t) (by omega) (by omega)
      (hP s (by omega)) (hP t (by omega))
    obtain ⟨cells, hloop, hdone⟩ := @ih { b with storage := cells₁ } s t hmade (by omega) (by omega)
      (by show t ≤ b.capacity.toNat; omega) (fun i hi => hP i (by omega))
    refine ⟨cells, ?_, hdone⟩
    rw [moveBackward, hpred, hpred, hassign]
    exact hloop

/-- The forward move of `erase` assigns to objects that are there. -/
theorem moveForward_spec {m s t : Nat} (h : Made b start P) (hts : t ≤ s)
    (hs : s + m ≤ b.capacity.toNat) (hP : ∀ i < s + m, P i) :
    ∃ cells, moveForward b (start + UInt64.ofNat s) (start + UInt64.ofNat t) m =
        .ok { b with storage := cells } ∧ Made { b with storage := cells } start P := by
  induction m generalizing b s t with
  | zero => exact ⟨b.storage, rfl, h⟩
  | succ m ih =>
    obtain ⟨cells₁, hassign, hmade⟩ := h.assign (s := s) (t := t) (by omega) (by omega)
      (hP s (by omega)) (hP t (by omega))
    obtain ⟨cells, hloop, hdone⟩ := @ih { b with storage := cells₁ } (s + 1) (t + 1) hmade (by omega)
      (by show s + 1 + m ≤ b.capacity.toNat; omega) (fun i hi => hP i (by omega))
    refine ⟨cells, ?_, hdone⟩
    rw [moveForward, hassign, ok_bind, ← add_ofNat_succ, ← add_ofNat_succ]
    exact hloop

/-- The loop at the end of `erase` over the offsets from `o` to `d`, when the counters are in order. -/
theorem destroyUpTo_spec {o d : Nat} (h : Made b start P) (hod : o ≤ d)
    (hd : d ≤ b.capacity.toNat) (hP : ∀ i, o ≤ i → i < d → P i)
    (hlt : start + UInt64.ofNat o < start + UInt64.ofNat d) :
    ∃ cells, destroyUpTo b (start + UInt64.ofNat o) (start + UInt64.ofNat d) =
        .ok { b with storage := cells } ∧
      Made { b with storage := cells } start (fun i => P i ∧ ¬ (o ≤ i ∧ i < d)) := by
  have hcap := h.capacity_lt
  have hindices : indices (start + UInt64.ofNat o) (start + UInt64.ofNat d) =
      countFrom (start + UInt64.ofNat o) (d - o) := by
    rw [indices, show start + UInt64.ofNat d - (start + UInt64.ofNat o) = UInt64.ofNat (d - o) by
      rw [UInt64.ofNat_sub hod]; grind, UInt64.toNat_ofNat_of_lt' (show _ < 2 ^ 64 by omega),
      countFrom]
  obtain ⟨cells, hloop, hleft⟩ := destroyAll_spec (o := o) (m := d - o) h (by omega)
    (fun i hi hlt => hP i hi (by omega))
  rw [Nat.add_sub_cancel' hod] at hleft
  exact ⟨cells, by rw [destroyUpTo, if_pos hlt, hindices]; exact hloop, hleft⟩

/-- An object outside of the counters. -/
theorem not_constructed {i m d : Nat} (h : Made b start P) (hi : i < b.capacity.toNat) (hP : P i)
    (hfirst : b.first = start + UInt64.ofNat d) (hlast : b.last = b.first + UInt64.ofNat m)
    (hm : d + m ≤ b.capacity.toNat) (hout : i < d ∨ d + m ≤ i) : ¬ Constructed b := by
  intro hconstructed
  have hcap := h.capacity_lt
  have hindices : indices b.first b.last = countFrom b.first m := by
    rw [indices, hlast, show b.first + UInt64.ofNat m - b.first = UInt64.ofNat m by grind,
      UInt64.toNat_ofNat_of_lt' (show _ < 2 ^ 64 by omega), countFrom]
  obtain ⟨idx, hidx, hslot⟩ :=
    (hconstructed.2 _ (h.slot_lt hi)).mp ((h.made i hi).mpr hP)
  rw [hindices] at hidx
  obtain ⟨j, hj, rfl⟩ := List.mem_map.mp hidx
  have hj' := List.mem_range.mp hj
  rw [hfirst, UInt64.add_assoc, ← UInt64.ofNat_add] at hslot
  have hsame := h.slot_inj (by omega) hi hslot
  omega

/-- Distances are compared as signed numbers, which does not matter below `2 ^ 63`. -/
theorem toInt64_lt {x y : UInt64} (hx : x.toNat < 2 ^ 63) (hy : y.toNat < 2 ^ 63) :
    x.toInt64 < y.toInt64 ↔ x.toNat < y.toNat := by
  have htoInt : ∀ z : UInt64, z.toNat < 2 ^ 63 → z.toInt64.toInt = z.toNat := by
    intro z hz
    show z.toBitVec.toInt = z.toNat
    exact BitVec.toInt_eq_toNat_of_lt (by show 2 * z.toNat < 2 ^ 64; omega)
  rw [Int64.lt_iff_toInt_lt, htoInt x hx, htoInt y hy]
  omega

/-- An erase of the first elements: the loop goes up from `begin`. -/
theorem eraseFront_spec {i j : Nat} (h : Full b n) (hij : i < j) (hj : j ≤ n) :
    ∃ b₁ b₂, moveBackward b (b.first + UInt64.ofNat i) (b.first + UInt64.ofNat j) i = .ok b₁ ∧
      destroyUpTo b₁ b₁.first (b.first + UInt64.ofNat (j - i)) = .ok b₂ ∧
      (b.first.toNat + (j - i) < 2 ^ 64 →
        Full { b₂ with first := b.first + UInt64.ofNat (j - i) } (n - (j - i))) ∧
      (¬ b.first.toNat + (j - i) < 2 ^ 64 →
        ¬ Constructed { b₂ with first := b.first + UInt64.ofNat (j - i) }) := by
  have hfits := h.fits
  have hlt := h.lt
  obtain ⟨cells₁, hmove, hmade₁⟩ := moveBackward_spec h.toMade (Nat.le_refl i) (Nat.le_of_lt hij)
    (hj.trans hfits) (fun x hx => by omega)
  have hcounter : (b.first + UInt64.ofNat (j - i)).toNat =
      (b.first.toNat + (j - i)) % 2 ^ 64 := by
    rw [UInt64.toNat_add, UInt64.toNat_ofNat_of_lt' (show _ < 2 ^ 64 by omega)]
  have hbound := UInt64.toNat_lt b.first
  by_cases horder : b.first.toNat + (j - i) < 2 ^ 64
  · have hup : b.first + UInt64.ofNat 0 < b.first + UInt64.ofNat (j - i) := by
      rw [UInt64.lt_iff_toNat_lt, hcounter, add_zero_ofNat]
      omega
    obtain ⟨cells₂, hdestroy, hmade₂⟩ := destroyUpTo_spec (b := { b with storage := cells₁ }) hmade₁
      (Nat.zero_le _) (by show j - i ≤ b.capacity.toNat; omega) (fun x _ hx => by omega) hup
    rw [add_zero_ofNat] at hdestroy
    have hleft : Made { b with storage := cells₂ } b.first (fun x => j - i ≤ x ∧ x < n) :=
      hmade₂.congr fun x _ => by omega
    exact ⟨_, _, hmove, hdestroy,
      fun _ => Full.advance (b := { b with storage := cells₂ }) (by omega) hleft hfits h.last,
      fun hnot => absurd horder hnot⟩
  · have hdown : ¬ b.first < b.first + UInt64.ofNat (j - i) := by
      rw [UInt64.lt_iff_toNat_lt, hcounter]
      omega
    refine ⟨_, _, hmove, if_neg hdown, fun hyes => absurd hyes horder, fun _ => ?_⟩
    -- The first vacated slot keeps its object.
    have hmade' : Made { b with storage := cells₁, first := b.first + UInt64.ofNat (j - i) } b.first
        (· < n) := ⟨hmade₁.capacity, hmade₁.length, hmade₁.made⟩
    refine not_constructed (i := 0) (m := n - (j - i)) hmade' ?_ ?_ rfl ?_ ?_ (.inl ?_)
    · show 0 < b.capacity.toNat
      omega
    · show 0 < n
      omega
    · show b.last = b.first + UInt64.ofNat (j - i) + UInt64.ofNat (n - (j - i))
      rw [h.last, UInt64.add_assoc, ← UInt64.ofNat_add, Nat.add_sub_cancel' (by omega)]
    · show j - i + (n - (j - i)) ≤ b.capacity.toNat
      omega
    · omega

/-- An erase of the last elements: the loop goes up to `end`. -/
theorem eraseBack_spec {i j : Nat} (h : Full b n) (hij : i < j) (hj : j ≤ n) :
    ∃ b₁ b₂, moveForward b (b.first + UInt64.ofNat j) (b.first + UInt64.ofNat i) (n - j) = .ok b₁ ∧
      destroyUpTo b₁ (b.first + UInt64.ofNat (i + (n - j))) b₁.last = .ok b₂ ∧
      (j - i ≤ b.last.toNat →
        Full { b₂ with last := b.first + UInt64.ofNat (i + (n - j)) } (i + (n - j))) ∧
      (¬ j - i ≤ b.last.toNat →
        ¬ Constructed { b₂ with last := b.first + UInt64.ofNat (i + (n - j)) }) := by
  have hfits := h.fits
  have hlt := h.lt
  obtain ⟨cells₁, hmove, hmade₁⟩ := moveForward_spec (m := n - j) h.toMade (Nat.le_of_lt hij)
    (by omega) (fun x hx => by omega)
  have hcounter : (b.first + UInt64.ofNat (i + (n - j))).toNat =
      (b.last.toNat + 2 ^ 64 - (j - i)) % 2 ^ 64 := by
    rw [h.last, UInt64.toNat_add, UInt64.toNat_add,
      UInt64.toNat_ofNat_of_lt' (show _ < 2 ^ 64 by omega),
      UInt64.toNat_ofNat_of_lt' (show _ < 2 ^ 64 by omega)]
    omega
  have hbound := UInt64.toNat_lt b.last
  by_cases horder : j - i ≤ b.last.toNat
  · have hup : b.first + UInt64.ofNat (i + (n - j)) < b.first + UInt64.ofNat n := by
      rw [← h.last, UInt64.lt_iff_toNat_lt, hcounter]
      omega
    obtain ⟨cells₂, hdestroy, hmade₂⟩ := destroyUpTo_spec (b := { b with storage := cells₁ }) hmade₁
      (by omega) hfits (fun x _ hx => hx) hup
    rw [← h.last] at hdestroy
    have hleft : Made { b with storage := cells₂ } b.first (· < i + (n - j)) :=
      hmade₂.congr fun x _ => by omega
    exact ⟨_, _, hmove, hdestroy,
      fun _ => Full.truncate (b := { b with storage := cells₂ }) (by omega) hleft hfits,
      fun hnot => absurd horder hnot⟩
  · have hdown : ¬ b.first + UInt64.ofNat (i + (n - j)) < b.last := by
      rw [UInt64.lt_iff_toNat_lt, hcounter]
      omega
    refine ⟨_, _, hmove, if_neg hdown, fun hyes => absurd hyes horder, fun _ => ?_⟩
    -- The last vacated slot keeps its object.
    have hmade' : Made { b with storage := cells₁, last := b.first + UInt64.ofNat (i + (n - j)) }
        b.first (· < n) := ⟨hmade₁.capacity, hmade₁.length, hmade₁.made⟩
    refine not_constructed (i := n - 1) (m := i + (n - j)) (d := 0) hmade' ?_ ?_ ?_ rfl ?_ (.inr ?_)
    · show n - 1 < b.capacity.toNat
      omega
    · show n - 1 < n
      omega
    · exact (add_zero_ofNat b.first).symm
    · show 0 + (i + (n - j)) ≤ b.capacity.toNat
      omega
    · omega

/-- `erase` leaves the objects where the counters say exactly when the counters of the vacated slots
are in order. -/
theorem erase_spec {i j : Nat} (h : Full b n) (hij : i ≤ j) (hj : j ≤ n) :
    ∃ b', erase b (UInt64.ofNat i) (UInt64.ofNat j) = .ok b' ∧
      ((i < j → InOrder b i j) → ∃ m, Full b' m) ∧ (Constructed b' → i < j → InOrder b i j) := by
  have hlt := h.lt
  rw [erase]
  dsimp only
  rcases Nat.lt_or_eq_of_le hij with hlt' | rfl
  · have hne : ¬ b.first + UInt64.ofNat i = b.first + UInt64.ofNat j := by
      intro heq
      have hnat : UInt64.ofNat i = UInt64.ofNat j := by grind
      have htoNat := congrArg UInt64.toNat hnat
      rw [UInt64.toNat_ofNat_of_lt' (show _ < 2 ^ 64 by omega),
        UInt64.toNat_ofNat_of_lt' (show _ < 2 ^ 64 by omega)] at htoNat
      omega
    have hfront : b.first + UInt64.ofNat i - b.first = UInt64.ofNat i := by grind
    have hback : b.last - (b.first + UInt64.ofNat j) = UInt64.ofNat (n - j) := by
      rw [h.last, UInt64.ofNat_sub hj]
      grind
    -- The source compares the two distances as signed numbers. Both are below the capacity.
    have hsides : (UInt64.ofNat i).toInt64 < (UInt64.ofNat (n - j)).toInt64 ↔ i < n - j := by
      rw [toInt64_lt (by rw [UInt64.toNat_ofNat_of_lt' (show _ < 2 ^ 64 by omega)]; omega)
        (by rw [UInt64.toNat_ofNat_of_lt' (show _ < 2 ^ 64 by omega)]; omega),
        UInt64.toNat_ofNat_of_lt' (show _ < 2 ^ 64 by omega),
        UInt64.toNat_ofNat_of_lt' (show _ < 2 ^ 64 by omega)]
    have hsize : b.size.toNat = n := h.size_eq
    rw [if_neg hne, hfront, hback, UInt64.toNat_ofNat_of_lt' (show _ < 2 ^ 64 by omega),
      UInt64.toNat_ofNat_of_lt' (show _ < 2 ^ 64 by omega)]
    simp only [InOrder, hsize]
    by_cases hside : i < n - j
    · -- Fewer elements stand in front: they move towards the back.
      rw [if_pos (hsides.mpr hside), if_pos hside]
      have hstart : b.first + UInt64.ofNat j - UInt64.ofNat i = b.first + UInt64.ofNat (j - i) := by
        rw [UInt64.ofNat_sub hij]
        grind
      obtain ⟨b₁, b₂, hmove, hdestroy, hright, hwrong⟩ := eraseFront_spec h hlt' hj
      refine ⟨_, by rw [hmove, ok_bind, hstart, hdestroy]; rfl, fun horder => ⟨_, hright (horder hlt')⟩,
        fun hconstructed _ => ?_⟩
      by_contra hnot
      exact hwrong hnot hconstructed
    · -- The elements behind the gap move towards the front.
      rw [if_neg (mt hsides.mp hside), if_neg hside]
      have hend : b.first + UInt64.ofNat i + UInt64.ofNat (n - j) =
          b.first + UInt64.ofNat (i + (n - j)) := by
        rw [UInt64.ofNat_add]
        grind
      obtain ⟨b₁, b₂, hmove, hdestroy, hright, hwrong⟩ := eraseBack_spec h hlt' hj
      refine ⟨_, by rw [hmove, ok_bind, hend, hdestroy]; rfl, fun horder => ⟨_, hright (horder hlt')⟩,
        fun hconstructed _ => ?_⟩
      by_contra hnot
      exact hwrong hnot hconstructed
  · exact ⟨b, if_pos rfl, fun _ => ⟨n, h⟩, fun _ hself => absurd hself (Nat.lt_irrefl i)⟩

/-! ### Runs -/

/-- The invariant of a session. -/
def Inv (s : Session α) : Prop := s.misuse = none ∧ ∀ i, ∃ n, Full (s.buffers i) n

/-- A call on one buffer leaves the others as they are. -/
theorem Inv.update {s : Session α} (h : Inv s) (i : Nat) (hb : Full b n) :
    Inv { s with buffers := Function.update s.buffers i b } := by
  refine ⟨h.1, fun j => ?_⟩
  show ∃ n, Full (Function.update s.buffers i b j) n
  by_cases heq : j = i
  · subst heq
    rw [Function.update_self]
    exact ⟨n, hb⟩
  · rw [Function.update_of_ne heq]
    exact h.2 j

/-- In a state with the invariant no lifetime went wrong. -/
theorem Inv.lifetimesRight {s : Session α} (h : Inv s) : LifetimesRight s := by
  refine ⟨h.1, fun i => ?_⟩
  obtain ⟨n, hfull⟩ := h.2 i
  exact hfull.constructed

/-- What a call on a buffer with `n` elements does, when it is allowed. -/
theorem bufferCall_spec {env : Env} {c : Call α} (h : Full b n) (hallowed : Allowed n c) :
    (∃ e size, bufferCall env b c = .error e ∧ c = .reserve size ∧ b.capacity < size ∧
        ¬ (size ≠ 1 ∧ size.toNat ≤ 2 ^ 63)) ∨
      (∃ i j b', bufferCall env b c = .ok (b', false) ∧ c = .erase i j ∧
        ((i < j → InOrder b i j) → ∃ m, Full b' m) ∧ (Constructed b' → i < j → InOrder b i j)) ∨
      (∃ b' threw m, bufferCall env b c = .ok (b', threw) ∧ Full b' m ∧
        (∀ i j, c ≠ .erase i j) ∧
        ∀ size, c = .reserve size → b.capacity < size → size ≠ 1 ∧ size.toNat ≤ 2 ^ 63) := by
  cases c with
  | pushFront x =>
    obtain ⟨b', threw, m, hcall, hfull⟩ := pushFront_spec env x h
    exact .inr (.inr ⟨b', threw, m, hcall, hfull, by simp, by simp⟩)
  | pushBack x =>
    obtain ⟨b', threw, m, hcall, hfull⟩ := pushBack_spec env x h
    exact .inr (.inr ⟨b', threw, m, hcall, hfull, by simp, by simp⟩)
  | popFront =>
    obtain ⟨m, rfl⟩ := Nat.exists_eq_succ_of_ne_zero hallowed
    obtain ⟨b', hcall, hfull⟩ := h.popFront
    exact .inr (.inr ⟨b', false, m, by rw [bufferCall, hcall]; rfl, hfull, by simp, by simp⟩)
  | popBack =>
    obtain ⟨m, rfl⟩ := Nat.exists_eq_succ_of_ne_zero hallowed
    obtain ⟨b', hcall, hfull⟩ := h.popBack
    exact .inr (.inr ⟨b', false, m, by rw [bufferCall, hcall]; rfl, hfull, by simp, by simp⟩)
  | reserve size =>
    by_cases hsize : b.capacity < size → size ≠ 1 ∧ size.toNat ≤ 2 ^ 63
    · obtain ⟨b', threw, hcall, hfull⟩ := reserve_spec env h hsize
      refine .inr (.inr ⟨b', threw, n, hcall, hfull, by simp, ?_⟩)
      rintro _ ⟨⟩
      exact hsize
    · obtain ⟨hlt, hbad⟩ := Classical.not_imp.mp hsize
      obtain ⟨e, hcall⟩ := reserve_misuse env hlt hbad
      exact .inl ⟨e, size, hcall, rfl, hlt, hbad⟩
  | erase i j =>
    obtain ⟨b', hcall, hright, hwrong⟩ := erase_spec h hallowed.1 hallowed.2
    exact .inr (.inl ⟨i, j, b', by rw [bufferCall, hcall]; rfl, rfl, hright, hwrong⟩)

/-- A step keeps the invariant when it meets its condition, and only then no lifetime goes wrong. -/
theorem Inv.step {s t : Session α} {e : Event α} (h : Inv s) (hstep : s.step e = some t) :
    (KeepsLifetimes s e → Inv t) ∧ (LifetimesRight t → KeepsLifetimes s e) := by
  have hnone : ¬ s.misuse.isSome = true := by simp [h.1]
  cases e with
  | call env i c =>
    obtain ⟨n, hfull⟩ := h.2 i
    have hsize : (s.buffers i).size.toNat = n := hfull.size_eq
    rw [Session.step, if_neg hnone, hsize] at hstep
    split at hstep
    · rename_i hallowed
      -- A call breaks a rule only in `reserve` below the size, and misses one only in `erase`.
      rcases bufferCall_spec hfull hallowed with
        ⟨e, size, hcall, rfl, hlt, hbad⟩ | ⟨p, q, b, hcall, rfl, hright, hwrong⟩ |
          ⟨b, threw, m, hcall, hb, herase, hreserve⟩
      · rw [hcall] at hstep
        cases hstep
        exact ⟨fun hkeeps => absurd (hkeeps hlt) hbad, fun hlife => nomatch hlife.1⟩
      · rw [hcall] at hstep
        cases hstep
        refine ⟨fun hkeeps => ?_, fun hlife => ?_⟩
        · obtain ⟨m, hb⟩ := hright hkeeps
          exact h.update i hb
        · have hconstructed : Constructed (Function.update s.buffers i b i) := hlife.2 i
          rw [Function.update_self] at hconstructed
          exact hwrong hconstructed
      · rw [hcall] at hstep
        cases hstep
        refine ⟨fun _ => h.update i hb, fun _ => ?_⟩
        cases c with
        | erase p q => exact absurd rfl (herase p q)
        | reserve size => exact hreserve size rfl
        | pushFront x => exact trivial
        | pushBack x => exact trivial
        | popFront => exact trivial
        | popBack => exact trivial
    · cases hstep
  | move i j =>
    refine ⟨fun _ => ?_, fun _ => trivial⟩
    rw [Session.step, if_neg hnone] at hstep
    split at hstep
    · cases hstep
      exact h
    · obtain ⟨n, hfull⟩ := h.2 i
      obtain ⟨m, hfrom⟩ := h.2 j
      rw [hfull.destructor] at hstep
      cases hstep
      exact (h.update i hfrom).update j Full.create
  | destruct i =>
    refine ⟨fun _ => ?_, fun _ => trivial⟩
    obtain ⟨n, hfull⟩ := h.2 i
    rw [Session.step, if_neg hnone, hfull.destructor] at hstep
    cases hstep
    exact h.update i Full.create

/-- In a run of any calls on any buffers no rule is broken and the objects are always from `begin` to
`end`, exactly as long as no `erase` vacates slots whose counters wrap and no `reserve` leaves the
language. -/
theorem lifetimesRight_iff (es : List (Event α)) :
    Always Session.step LifetimesRight Session.create es ↔
      Guarded Session.step KeepsLifetimes Session.create es :=
  always_iff_guarded_of_inv Inv (fun _ hs => hs.lifetimesRight)
    (fun _ _ _ hs hkeeps hstep => (hs.step hstep).1 hkeeps)
    (fun _ _ _ hs hstep hlife => (hs.step hstep).2 hlife) ⟨rfl, fun _ => ⟨0, Full.create⟩⟩ es

/-- The second push expands the buffer, so the first element moves to the counter 0 and the second one
gets `2 ^ 64 - 1`. When both are erased, the loop that destroys them would run from `2 ^ 64 - 1` up to 1,
and destroys neither. -/
theorem not_lifetimesRight_wrapped :
    ¬ Always Session.step LifetimesRight (Session.create : Session Nat)
      [.call ⟨false, true, none, false⟩ 0 (.pushFront 1),
        .call ⟨false, true, none, false⟩ 0 (.pushFront 2),
        .call ⟨false, true, none, false⟩ 0 (.erase 0 2)] := by
  intro h
  have hlast := ((((h.2 _ rfl).2 _ rfl).2 _ rfl).2 0).2 0 (by decide +kernel)
  exact absurd hlast (by decide +kernel)

end Netstar.Proofs.Core.BufferLifetimes
