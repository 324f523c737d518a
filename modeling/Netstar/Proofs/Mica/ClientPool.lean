import Mathlib.Data.List.Nodup
import Netstar.Lib.SlotPool
import Netstar.Proofs.Mica.RequestAssembler
import Netstar.Proofs.Mica.Wire

/-!
# `Netstar.Proofs.Mica.ClientPool`: the descriptors of a client as a pool of slots

A request descriptor is a slot of a pool, and its epoch is the age of the slot modulo `2 ^ 16`.
`ClientOk` says that the client looks like the pool. A free slot is in `_recycled_rds`, a pending
slot is in one assembler, and a slot in flight is in none of the containers and its timer is armed.

In the middle of a call, one descriptor may be on its way from one container to another. This one is
in `limbo`: it is in no container, and nothing is known about its fields.
-/

set_option autoImplicit false

namespace Netstar.Proofs.Mica

open Netstar.Lib.SlotPool
open Netstar.Spec.Mica

/-! ### One descriptor -/

/-- The opaque of the requests that descriptor `i` sends at this age. -/
def opaqueOf (i age : Nat) : BitVec 32 :=
  ((BitVec.ofNat 16 i).setWidth 32 <<< 16) ||| (BitVec.ofNat 16 age).setWidth 32

/-- The descriptor serves the query `q`, which timed out `r` times. -/
structure Serves (i : Nat) (d : RequestDescriptor Nat) (age q r : Nat) : Prop where
  pr : d.pr = some q
  retryCount : d.retryCount = r
  opaqueId : d.rqHd.opaqueId = opaqueOf i age
  requestSize : d.requestSize ≤ maxReqLen

/-- What a descriptor's fields say in each phase of its slot. -/
def PhaseOk (i : Nat) (d : RequestDescriptor Nat) (age : Nat) : Phase → Prop
  | .free => d.pr = none ∧ d.retryCount = 0 ∧ d.toArmed = false
  | .pending q r => Serves i d age q r ∧ d.toArmed = false
  | .inFlight q r => Serves i d age q r ∧ d.toArmed = true

/-- The descriptor looks like the slot. -/
structure DescriptorOk (i : Nat) (d : RequestDescriptor Nat) (s : Slot) : Prop where
  rdIndex : d.rdIndex = BitVec.ofNat 16 i
  epoch : d.epoch = BitVec.ofNat 16 s.age
  phase : PhaseOk i d s.age s.phase

/-- A descriptor's opaque value is made of its index and its slot's age. -/
theorem DescriptorOk.currentOpaque {i : Nat} {d : RequestDescriptor Nat} {s : Slot}
    (h : DescriptorOk i d s) : d.currentOpaque = opaqueOf i s.age := by
  rw [RequestDescriptor.currentOpaque, h.rdIndex, h.epoch, opaqueOf]

/-- What the client reads from an opaque. -/
theorem header_opaqueOf {rh : RequestHeader} {i age : Nat} (hi : i < totalRequestDescriptorCount)
    (h : rh.opaqueId = opaqueOf i age) : rh.rdIdx = i ∧ rh.epoch = BitVec.ofNat 16 age := by
  have hsplit := opaque_split rh
    { (RequestDescriptor.create i rh : RequestDescriptor Nat) with epoch := BitVec.ofNat 16 age } h
  refine ⟨hsplit.1.trans ?_, hsplit.2⟩
  have hlt : i < 2 ^ 16 := Nat.lt_trans hi (by decide)
  exact (BitVec.toNat_ofNat i 16).trans (Nat.mod_eq_of_lt hlt)

/-- An epoch that was not overtaken by `2 ^ 16` tells the age. -/
theorem age_eq_of_epoch_eq {a b : Nat} (hle : a ≤ b) (hfresh : b < a + 2 ^ 16)
    (h : BitVec.ofNat 16 a = BitVec.ofNat 16 b) : a = b := by
  have hmod : a % 2 ^ 16 = b % 2 ^ 16 := by simpa using congrArg BitVec.toNat h
  omega

/-- The number of advances between two epochs. -/
theorem epoch_sub_epoch {a b : Nat} (h : b = a ∨ b = a + 1) :
    (BitVec.ofNat 16 b - BitVec.ofNat 16 a).toNat = b - a := by
  rw [BitVec.toNat_sub, BitVec.toNat_ofNat, BitVec.toNat_ofNat]
  omega

/-! ### The containers -/

/-- The descriptors that wait in the assemblers. -/
def pendingIdxs (ras : List RequestAssembler) : List Nat :=
  ras.flatMap fun ra => ra.rdIdxs ++ ra.sendStream

/-- How often a slot in this phase is in `_recycled_rds` and in the assemblers. -/
def placeOf : Phase → Nat × Nat
  | .free => (1, 0)
  | .pending _ _ => (0, 1)
  | .inFlight _ _ => (0, 0)

/-- How often an index is in `_recycled_rds` and in the assemblers. -/
def placeIn (limbo : Option Nat) (slot : Nat → Slot) (i : Nat) : Nat × Nat :=
  if i < totalRequestDescriptorCount ∧ some i ≠ limbo then placeOf (slot i).phase else (0, 0)

/-- The descriptor in limbo lies in no place. -/
theorem placeIn_limbo (slot : Nat → Slot) (i : Nat) : placeIn (some i) slot i = (0, 0) := by
  simp [placeIn]

/-- Every other descriptor lies where it lies without one in limbo. -/
theorem placeIn_of_ne (slot : Nat → Slot) {i k : Nat} (hki : k ≠ i) :
    placeIn (some i) slot k = placeIn none slot k := by
  simp [placeIn, hki]

/-- A descriptor that is not in limbo lies where its phase says. -/
theorem placeIn_of_lt {limbo : Option Nat} (slot : Nat → Slot) {i : Nat}
    (hi : i < totalRequestDescriptorCount) (hlimbo : some i ≠ limbo) :
    placeIn limbo slot i = placeOf (slot i).phase :=
  if_pos ⟨hi, hlimbo⟩

/-- The place of a descriptor depends on its own slot only. -/
theorem placeIn_congr {limbo : Option Nat} {slot slot' : Nat → Slot} {i : Nat}
    (h : slot' i = slot i) : placeIn limbo slot' i = placeIn limbo slot i := by
  rw [placeIn, placeIn, h]

/-- The client looks like the slots. -/
structure ClientOk (c : MicaClient) (slot : Nat → Slot) (limbo : Option Nat) : Prop where
  length : c.rds.length = totalRequestDescriptorCount
  whichRa : c.whichRa < c.ras.length
  streams : ∀ ra ∈ c.ras, ra.sendStream = []
  descriptor : ∀ i d, some i ≠ limbo → c.rds[i]? = some d → DescriptorOk i d (slot i)
  recycled : ∀ i, c.recycledRds.count i = (placeIn limbo slot i).1
  pending : ∀ i, (pendingIdxs c.ras).count i = (placeIn limbo slot i).2

/-- Replacing an assembler trades its waiting descriptors for those of the new one. -/
theorem count_pendingIdxs_set {ras : List RequestAssembler} {a : Nat} {ra : RequestAssembler}
    (h : ras[a]? = some ra) (ra' : RequestAssembler) (k : Nat) :
    (pendingIdxs (ras.set a ra')).count k + (ra.rdIdxs ++ ra.sendStream).count k =
      (pendingIdxs ras).count k + (ra'.rdIdxs ++ ra'.sendStream).count k := by
  induction ras generalizing a with
  | nil => cases h
  | cons x ras ih =>
    cases a with
    | zero =>
      cases h
      simp only [pendingIdxs, List.set_cons_zero, List.flatMap_cons, List.count_append]
      omega
    | succ a =>
      have hrest := ih h
      simp only [pendingIdxs, List.set_cons_succ, List.flatMap_cons, List.count_append] at hrest ⊢
      omega

namespace ClientOk

variable {c : MicaClient} {slot : Nat → Slot} {limbo : Option Nat}

/-- The effects and the number of queries do not matter. -/
theorem congr (h : ClientOk c slot limbo) {c' : MicaClient} (hrds : c'.rds = c.rds)
    (hras : c'.ras = c.ras) (hrecycled : c'.recycledRds = c.recycledRds)
    (hwhich : c'.whichRa = c.whichRa) : ClientOk c' slot limbo where
  length := hrds ▸ h.length
  whichRa := by
    rw [hwhich, hras]
    exact h.whichRa
  streams := hras ▸ h.streams
  descriptor := hrds ▸ h.descriptor
  recycled := hrecycled ▸ h.recycled
  pending := hras ▸ h.pending

/-- The client has an assembler. -/
theorem smpCount_pos (h : ClientOk c slot limbo) : 0 < c.ras.length :=
  Nat.zero_lt_of_lt h.whichRa

/-- A descriptor in an assembler is pending, and it is there once. -/
theorem pending_of_mem (h : ClientOk c slot limbo) {i : Nat} (hi : i ∈ pendingIdxs c.ras) :
    (pendingIdxs c.ras).count i = 1 ∧ i < totalRequestDescriptorCount ∧ some i ≠ limbo ∧
      ∃ q r, (slot i).phase = .pending q r := by
  have hpos : 0 < (pendingIdxs c.ras).count i := List.count_pos_iff.mpr hi
  rw [h.pending i, placeIn] at hpos ⊢
  split at hpos
  case isFalse => exact absurd hpos (Nat.lt_irrefl 0)
  case isTrue hvalid =>
    rw [if_pos hvalid]
    cases hphase : (slot i).phase with
    | pending q r => exact ⟨rfl, hvalid.1, hvalid.2, q, r, rfl⟩
    | free | inFlight =>
      rw [hphase] at hpos
      exact absurd hpos (Nat.lt_irrefl 0)

section Assembler

variable {a : Nat} {ra : RequestAssembler}

/-- A descriptor in an assembler is pending. -/
theorem mem_pendingIdxs (hra : c.ras[a]? = some ra) {i : Nat} (hi : i ∈ ra.rdIdxs) :
    i ∈ pendingIdxs c.ras :=
  List.mem_flatMap.mpr ⟨ra, List.mem_of_getElem? hra, List.mem_append_left _ hi⟩

/-- No descriptor waits twice in an assembler. -/
theorem nodup_rdIdxs (h : ClientOk c slot limbo) (hra : c.ras[a]? = some ra) :
    ra.rdIdxs.Nodup := by
  rw [List.nodup_iff_count_le_one]
  intro i
  by_cases hi : i ∈ ra.rdIdxs
  · have hone := (h.pending_of_mem (mem_pendingIdxs hra hi)).1
    have hset := count_pendingIdxs_set hra ⟨0, [], []⟩ i
    simp only [List.count_append, List.count_nil] at hset
    omega
  · rw [List.count_eq_zero.mpr hi]
    exact Nat.zero_le 1

/-- Every index below the count has a descriptor. -/
theorem exists_rd (h : ClientOk c slot limbo) {i : Nat} (hi : i < totalRequestDescriptorCount) :
    ∃ d, c.rds[i]? = some d :=
  ⟨_, List.getElem?_eq_getElem (h.length ▸ hi)⟩

/-- The descriptors of an assembler are ready to be sent. -/
theorem rdIdxs_pending (h : ClientOk c slot limbo) (hra : c.ras[a]? = some ra) {i : Nat}
    (hi : i ∈ ra.rdIdxs) :
    some i ≠ limbo ∧ ∃ d q r, c.rds[i]? = some d ∧ DescriptorOk i d (slot i) ∧
      slot i = ⟨(slot i).age, .pending q r⟩ := by
  obtain ⟨-, hlt, hlimbo, q, r, hphase⟩ := h.pending_of_mem (mem_pendingIdxs hra hi)
  obtain ⟨d, hd⟩ := h.exists_rd hlt
  refine ⟨hlimbo, d, q, r, hd, h.descriptor i d hlimbo hd, ?_⟩
  rw [← hphase]

/-- The descriptors in an assembler have no timer armed. -/
theorem unarmed_rdIdxs (h : ClientOk c slot limbo) (hra : c.ras[a]? = some ra) :
    Unarmed c.rds ra.rdIdxs := by
  intro i hi
  obtain ⟨-, d, q, r, hd, hok, hslot⟩ := h.rdIdxs_pending hra hi
  have hphase := hok.phase
  rw [hslot] at hphase
  exact ⟨d, hd, hphase.2⟩

end Assembler

/-! ### Moves between the containers -/

/-- A descriptor that an assembler sends goes from pending to in flight. -/
theorem phase_transmitAll {p : Pool (List UInt8)} (h : ClientOk c p.slot limbo) {a : Nat}
    {ra : RequestAssembler} (hra : c.ras[a]? = some ra) {sent kept : List Nat}
    (hsplit : ra.rdIdxs = sent ++ kept) {i : Nat} (hi : i ∈ sent) :
    i < totalRequestDescriptorCount ∧ some i ≠ limbo ∧
      ∃ q r, (p.slot i).phase = .pending q r ∧
        (p.transmitAll sent).slot i = ⟨(p.slot i).age, .inFlight q r⟩ := by
  have hmem : i ∈ ra.rdIdxs := by
    rw [hsplit]
    exact List.mem_append_left _ hi
  obtain ⟨-, hlt, hlimbo, q, r, hphase⟩ := h.pending_of_mem (mem_pendingIdxs hra hmem)
  refine ⟨hlt, hlimbo, q, r, hphase, ?_⟩
  rw [Pool.transmitAll]
  dsimp only
  rw [if_pos hi, Slot.sent, hphase]

/-- An assembler sends some of its descriptors. -/
theorem flush {p : Pool (List UInt8)} (h : ClientOk c p.slot limbo) {a : Nat}
    {ra : RequestAssembler} (hra : c.ras[a]? = some ra) {sent kept : List Nat}
    (hsplit : ra.rdIdxs = sent ++ kept) (size : Nat) (es : List ClientEffect) :
    ClientOk
      { c with ras := c.ras.set a ⟨size, kept, []⟩, rds := armAll sent c.rds, effects := es }
      (p.transmitAll sent).slot limbo where
  length := by
    rw [length_armAll]
    exact h.length
  whichRa := by
    rw [List.length_set]
    exact h.whichRa
  streams := by
    intro ra' hra'
    rcases List.mem_or_eq_of_mem_set hra' with hold | rfl
    · exact h.streams ra' hold
    · rfl
  descriptor := by
    intro i d hlimbo hd
    rw [getElem?_armAll] at hd
    obtain ⟨d₀, hd₀, rfl⟩ := Option.map_eq_some_iff.mp hd
    have hok := h.descriptor i d₀ hlimbo hd₀
    by_cases hi : i ∈ sent
    -- The pool has a request for a descriptor that is sent, and the descriptor still serves it.
    · obtain ⟨-, -, q, r, hphase, hsent⟩ := h.phase_transmitAll hra hsplit hi
      have hserves := hok.phase
      rw [hphase] at hserves
      rw [if_pos hi, hsent]
      refine ⟨hok.rdIndex, hok.epoch, ⟨?_, rfl⟩⟩
      exact ⟨hserves.1.pr, hserves.1.retryCount, hserves.1.opaqueId, hserves.1.requestSize⟩
    · have hsame : (p.transmitAll sent).slot i = p.slot i := if_neg hi
      rw [if_neg hi, hsame]
      exact hok
  recycled := by
    intro i
    rw [h.recycled i]
    by_cases hi : i ∈ sent
    · obtain ⟨hlt, hlimbo, q, r, hphase, hsent⟩ := h.phase_transmitAll hra hsplit hi
      rw [placeIn_of_lt _ hlt hlimbo, placeIn_of_lt _ hlt hlimbo, hphase, hsent]
      rfl
    · have hsame : (p.transmitAll sent).slot i = p.slot i := if_neg hi
      rw [placeIn_congr hsame]
  pending := by
    intro i
    -- The numbers that leave the assembler are exactly those that are in flight now.
    have hset := count_pendingIdxs_set hra ⟨size, kept, []⟩ i
    have hempty := h.streams ra (List.mem_of_getElem? hra)
    simp only [hsplit, hempty, List.count_append, List.count_nil, h.pending i] at hset
    dsimp only
    by_cases hi : i ∈ sent
    · obtain ⟨hlt, hlimbo, q, r, hphase, hsent⟩ := h.phase_transmitAll hra hsplit hi
      have hcount : 0 < sent.count i := List.count_pos_iff.mpr hi
      rw [placeIn_of_lt _ hlt hlimbo, hphase, placeOf] at hset
      rw [placeIn_of_lt _ hlt hlimbo, hsent, placeOf]
      omega
    · have hcount : sent.count i = 0 := List.count_eq_zero.mpr hi
      have hsame : (p.transmitAll sent).slot i = p.slot i := if_neg hi
      rw [placeIn_congr hsame]
      omega

/-- The descriptor in limbo goes to an assembler. -/
theorem append {i : Nat} (h : ClientOk c slot (some i)) (hi : i < totalRequestDescriptorCount)
    {a size : Nat} {kept : List Nat} (hra : c.ras[a]? = some ⟨size, kept, []⟩) (size' : Nat)
    {q r : Nat} (hphase : (slot i).phase = .pending q r) {d : RequestDescriptor Nat}
    (hd : DescriptorOk i d (slot i)) :
    ClientOk { c with ras := c.ras.set a ⟨size', kept ++ [i], []⟩, rds := c.rds.set i d } slot
      none where
  length := by
    rw [List.length_set]
    exact h.length
  whichRa := by
    rw [List.length_set]
    exact h.whichRa
  streams := by
    intro ra' hra'
    rcases List.mem_or_eq_of_mem_set hra' with hold | rfl
    · exact h.streams ra' hold
    · rfl
  descriptor := by
    intro k d' _ hd'
    by_cases hki : i = k
    · subst hki
      rw [List.getElem?_set_self (h.length ▸ hi)] at hd'
      cases hd'
      exact hd
    · rw [List.getElem?_set_ne hki] at hd'
      exact h.descriptor k d' (by simpa using Ne.symm hki) hd'
  recycled := by
    intro k
    rw [h.recycled k]
    -- Only descriptor `i` changes its place.
    by_cases hki : k = i
    · subst hki
      rw [placeIn_limbo, placeIn_of_lt _ hi (Option.some_ne_none _), hphase]
      rfl
    · rw [placeIn_of_ne _ hki]
  pending := by
    intro k
    have hset := count_pendingIdxs_set hra ⟨size', kept ++ [i], []⟩ k
    simp only [List.count_append, List.count_nil, h.pending k] at hset
    dsimp only
    by_cases hki : k = i
    · subst hki
      rw [placeIn_limbo, List.count_singleton_self] at hset
      rw [placeIn_of_lt _ hi (Option.some_ne_none _), hphase, placeOf]
      omega
    · have hcount : [i].count k = 0 := List.count_eq_zero.mpr (by simpa using hki)
      rw [placeIn_of_ne _ hki] at hset
      omega

/-- A descriptor in flight is in no container. -/
theorem take (h : ClientOk c slot none) {i q r : Nat} (hi : i < totalRequestDescriptorCount)
    (hphase : (slot i).phase = .inFlight q r) : ClientOk c slot (some i) where
  length := h.length
  whichRa := h.whichRa
  streams := h.streams
  descriptor := fun k d _ hd => h.descriptor k d (Option.some_ne_none k) hd
  recycled := by
    intro k
    rw [h.recycled k]
    by_cases hki : k = i
    · subst hki
      rw [placeIn_limbo, placeIn_of_lt _ hi (Option.some_ne_none _), hphase]
      rfl
    · rw [placeIn_of_ne _ hki]
  pending := by
    intro k
    rw [h.pending k]
    by_cases hki : k = i
    · subst hki
      rw [placeIn_limbo, placeIn_of_lt _ hi (Option.some_ne_none _), hphase]
      rfl
    · rw [placeIn_of_ne _ hki]

/-- The first recycled descriptor is free. -/
theorem free_of_recycled (h : ClientOk c slot none) {i : Nat} {rest : List Nat}
    (hrecycled : c.recycledRds = i :: rest) :
    i < totalRequestDescriptorCount ∧ (slot i).phase = .free := by
  have hcount := h.recycled i
  rw [hrecycled, List.count_cons_self, placeIn] at hcount
  split at hcount
  case isFalse => cases hcount
  case isTrue hvalid =>
    refine ⟨hvalid.1, ?_⟩
    cases hphase : (slot i).phase with
    | free => rfl
    | pending | inFlight =>
      rw [hphase] at hcount
      cases hcount

/-- The first recycled descriptor is taken from the queue. -/
theorem pop (h : ClientOk c slot none) {i : Nat} {rest : List Nat}
    (hrecycled : c.recycledRds = i :: rest) :
    ClientOk { c with recycledRds := rest } slot (some i) := by
  obtain ⟨hi, hphase⟩ := h.free_of_recycled hrecycled
  constructor
  case length => exact h.length
  case whichRa => exact h.whichRa
  case streams => exact h.streams
  case descriptor => exact fun k d _ hd => h.descriptor k d (Option.some_ne_none k) hd
  case recycled =>
    intro k
    have hcount := h.recycled k
    rw [hrecycled, List.count_cons] at hcount
    dsimp only
    by_cases hki : k = i
    · subst hki
      rw [placeIn_of_lt _ hi (Option.some_ne_none _), hphase, placeOf] at hcount
      rw [placeIn_limbo]
      simpa using hcount
    · rw [placeIn_of_ne _ hki, ← hcount]
      simp [Ne.symm hki]
  case pending =>
    intro k
    rw [h.pending k]
    by_cases hki : k = i
    · subst hki
      rw [placeIn_limbo, placeIn_of_lt _ hi (Option.some_ne_none _), hphase]
      rfl
    · rw [placeIn_of_ne _ hki]

/-- Nothing is known about the descriptor and the slot in limbo. -/
theorem setLimbo {i : Nat} (h : ClientOk c slot (some i)) (d : RequestDescriptor Nat) (s : Slot) :
    ClientOk (c.setRd i d) (Function.update slot i s) (some i) := by
  have hplace (k : Nat) :
      placeIn (some i) (Function.update slot i s) k = placeIn (some i) slot k := by
    by_cases hki : k = i
    · rw [hki, placeIn_limbo, placeIn_limbo]
    · exact placeIn_congr (Function.update_of_ne hki ..)
  constructor
  case length => exact (List.length_set ..).trans h.length
  case whichRa => exact h.whichRa
  case streams => exact h.streams
  case descriptor =>
    intro k d' hlimbo hd'
    have hki : k ≠ i := by simpa using hlimbo
    rw [MicaClient.setRd, List.getElem?_set_ne (Ne.symm hki)] at hd'
    rw [Function.update_of_ne hki]
    exact h.descriptor k d' hlimbo hd'
  case recycled => exact fun k => (h.recycled k).trans (by rw [hplace])
  case pending => exact fun k => (h.pending k).trans (by rw [hplace])

/-- The descriptor in limbo goes back to `_recycled_rds`. -/
theorem recycle {i : Nat} (h : ClientOk c slot (some i)) (hi : i < totalRequestDescriptorCount)
    (hphase : (slot i).phase = .free)
    (hd : ∀ d, c.rds[i]? = some d → DescriptorOk i d (slot i)) :
    ClientOk (c.recycle i) slot none where
  length := h.length
  whichRa := h.whichRa
  streams := h.streams
  descriptor := by
    intro k d _ hk
    by_cases hki : k = i
    · subst hki
      exact hd d hk
    · exact h.descriptor k d (by simpa using hki) hk
  recycled := by
    intro k
    have hcount := h.recycled k
    have happend : (c.recycle i).recycledRds = c.recycledRds ++ [i] := rfl
    rw [happend, List.count_append, hcount]
    by_cases hki : k = i
    · subst hki
      rw [placeIn_limbo, placeIn_of_lt _ hi (Option.some_ne_none _), hphase]
      simp [placeOf]
    · rw [placeIn_of_ne _ hki]
      simp [Ne.symm hki]
  pending := by
    intro k
    have hsame : (c.recycle i).ras = c.ras := rfl
    rw [hsame, h.pending k]
    by_cases hki : k = i
    · subst hki
      rw [placeIn_limbo, placeIn_of_lt _ hi (Option.some_ne_none _), hphase]
      rfl
    · rw [placeIn_of_ne _ hki]

end ClientOk

end Netstar.Proofs.Mica
