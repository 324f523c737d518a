import Netstar.Lib.Result
import Netstar.Proofs.Mica.BatchHeader
import Netstar.Proofs.Mica.RequestAssembler
import Netstar.Spec.Mica.Receive

/-!
# `Netstar.Proofs.Mica.Receive`: which responses the client can take

`receive` trusts the lengths, the indices and the epochs in a response. All the guards in its way are
`mc_assert`s, and these are compiled out. `receiveLoop_eq_ok` splits the loop in two. The bytes have
to be records, one after the other, and the client has to take these records in order.
`foldlM_receiveRecord` is about the second part: a descriptor takes one response in its epoch,
provided that it has a promise. After that it has no promise, and its epoch is the next one.

`receive_correct_iff` puts both together. Nothing else decides whether `receive` stays inside the
packet and its tables.
-/

set_option autoImplicit false

namespace Netstar.Proofs.Mica

open Netstar.Lib
open Netstar.Spec.Mica
open Netstar.Spec.Mica.MicaClient

/-! ### The bytes -/

/-- A record of a response: it starts with a header, and it is as long as the header says. -/
def IsRecord (r : List UInt8) : Prop :=
  requestHeaderSize ≤ r.length ∧
    totalResponseLength (RequestHeader.ofBytes (r.take requestHeaderSize)) = r.length

/-- Whether bytes are one record can be computed. -/
instance (r : List UInt8) : Decidable (IsRecord r) := by unfold IsRecord; infer_instance

/-- The record that `receive` makes of these bytes. -/
def recordOf (r : List UInt8) : ResponseRecord :=
  ⟨RequestHeader.ofBytes (r.take requestHeaderSize), r⟩

/-- A response is at least as long as its header. -/
theorem requestHeaderSize_le_totalResponseLength (rh : RequestHeader) :
    requestHeaderSize ≤ totalResponseLength rh := by
  rw [totalResponseLength, Nat.add_assoc]
  exact Nat.le_add_right _ _

/-- The loop has enough fuel for the rest of the packet. -/
theorem receiveLoop_ne_outOfFuel (p : List UInt8) (fuel offset : Nat) (c : MicaClient)
    (hfuel : p.length ≤ offset + fuel) :
    receiveLoop p fuel offset c ≠ .error (.packet .outOfFuel) := by
  induction fuel generalizing offset c with
  | zero =>
    rw [receiveLoop, if_neg (by omega)]
    exact nofun
  | succ fuel ih =>
    rw [receiveLoop]
    split
    next hlt =>
      cases hget : getHeader p offset requestHeaderSize with
      | none => exact nofun
      | some bytes =>
        have hsize := requestHeaderSize_le_totalResponseLength (RequestHeader.ofBytes bytes)
        have hpos : 0 < requestHeaderSize := by decide
        dsimp only
        split
        · split
          · exact nofun
          · exact ih _ _ (by omega)
        · exact nofun
    next => exact nofun

/-- The bytes behind a record. -/
theorem drop_of_append {p r rest : List UInt8} {offset : Nat} (h : r ++ rest = p.drop offset) :
    p.drop (offset + r.length) = rest ∧ r.length ≤ p.length - offset := by
  constructor
  · rw [← List.drop_drop, ← h, List.drop_left]
  · have hsum := congrArg List.length h
    rw [List.length_append, List.length_drop] at hsum
    omega

/-- The loop takes one record off the rest of the packet, or it stops. -/
theorem receiveLoop_succ {p : List UInt8} {fuel offset : Nat} {c : MicaClient}
    (hlt : offset < p.length) (x : MicaClient × Nat) :
    receiveLoop p (fuel + 1) offset c = .ok x ↔
      ∃ r c', IsRecord r ∧ r <+: p.drop offset ∧ c.receiveRecord (recordOf r) = .ok c' ∧
        receiveLoop p fuel (offset + r.length) c' = .ok x := by
  have hlen : (p.drop offset).length = p.length - offset := List.length_drop
  rw [receiveLoop, if_pos hlt, getHeader]
  constructor
  · intro h
    obtain ⟨rh, hrh⟩ : ∃ rh, RequestHeader.ofBytes ((p.drop offset).take requestHeaderSize) = rh :=
      ⟨_, rfl⟩
    by_cases hfit : offset + requestHeaderSize ≤ p.length
    · rw [if_pos hfit] at h
      dsimp only at h
      rw [hrh] at h
      by_cases htotal : offset + totalResponseLength rh ≤ p.length
      · rw [if_pos htotal] at h
        -- The record is the part of the packet that the loop shares.
        have hr : (share p offset (totalResponseLength rh)).length = totalResponseLength rh := by
          rw [share, List.length_take, hlen]
          omega
        have hhead : (share p offset (totalResponseLength rh)).take requestHeaderSize =
            (p.drop offset).take requestHeaderSize := by
          rw [share, List.take_take, Nat.min_eq_left (requestHeaderSize_le_totalResponseLength _)]
        cases hc' : c.receiveRecord ⟨rh, share p offset (totalResponseLength rh)⟩ with
        | error e =>
          rw [hc'] at h
          cases h
        | ok c' =>
          rw [hc'] at h
          refine ⟨share p offset (totalResponseLength rh), c', ⟨?_, ?_⟩, List.take_prefix _ _, ?_, ?_⟩
          · rw [hr]
            exact requestHeaderSize_le_totalResponseLength rh
          · rw [hhead, hrh, hr]
          · rw [recordOf, hhead, hrh]
            exact hc'
          · rw [hr]
            exact h
      · rw [if_neg htotal] at h
        cases h
    · rw [if_neg hfit] at h
      cases h
  · rintro ⟨r, c', ⟨hsize, hrecord⟩, hpre, hc', h⟩
    have hle := hpre.length_le
    have htake : (p.drop offset).take requestHeaderSize = r.take requestHeaderSize := by
      obtain ⟨rest, hrest⟩ := hpre
      rw [← hrest, List.take_append_of_le_length hsize]
    have hshare : share p offset r.length = r := (List.prefix_iff_eq_take.mp hpre).symm
    rw [if_pos (by omega)]
    dsimp only
    rw [htake, hrecord, if_pos (by omega), hshare, ← recordOf, hc']
    exact h

/-- At the end of the packet there is no record left. -/
theorem eq_nil_of_flatten_eq_nil {rs : List (List UInt8)} (hrs : ∀ r ∈ rs, IsRecord r)
    (h : rs.flatten = []) : rs = [] := by
  cases rs with
  | nil => rfl
  | cons r rs =>
    have hsize := (hrs r List.mem_cons_self).1
    rw [(List.append_eq_nil_iff.mp h).1] at hsize
    exact absurd hsize (by decide)

/-- At the end of the packet, the loop stops without an error. -/
theorem records_at_end (p : List UInt8) (c : MicaClient) (x : MicaClient × Nat) :
    (Except.ok (c, p.length) : Except ReceiveError (MicaClient × Nat)) = .ok x ↔
      ∃ rs : List (List UInt8), p.drop p.length = rs.flatten ∧ (∀ r ∈ rs, IsRecord r) ∧
        (rs.map recordOf).foldlM receiveRecord c = .ok x.1 ∧ x.2 = p.length := by
  rw [List.drop_length]
  constructor
  · intro h
    cases h
    exact ⟨[], rfl, nofun, rfl, rfl⟩
  · rintro ⟨rs, hflat, hrs, hfold, hlast⟩
    obtain rfl := eq_nil_of_flatten_eq_nil hrs hflat.symm
    cases hfold
    rw [← hlast]

/-- The loop ends well when the rest of the packet is made of records that the client takes one by
one. Then it ends at the end of the packet. -/
theorem receiveLoop_eq_ok {p : List UInt8} (x : MicaClient × Nat) (fuel offset : Nat)
    (c : MicaClient) (hoffset : offset ≤ p.length) (hfuel : p.length ≤ offset + fuel) :
    receiveLoop p fuel offset c = .ok x ↔
      ∃ rs : List (List UInt8), p.drop offset = rs.flatten ∧ (∀ r ∈ rs, IsRecord r) ∧
        (rs.map recordOf).foldlM receiveRecord c = .ok x.1 ∧ x.2 = p.length := by
  have hpos : 0 < requestHeaderSize := by decide
  induction fuel generalizing offset c with
  | zero =>
    obtain rfl : offset = p.length := by omega
    rw [receiveLoop, if_neg (Nat.lt_irrefl _)]
    exact records_at_end p c x
  | succ fuel ih =>
    by_cases hlt : offset < p.length
    · rw [receiveLoop_succ hlt]
      constructor
      · rintro ⟨r, c', hr, ⟨rest, hrest⟩, hc', h⟩
        obtain ⟨hdrop, hle⟩ := drop_of_append hrest
        have hsize := hr.1
        obtain ⟨rs, hflat, hrs, hfold, hlast⟩ := (ih _ _ (by omega) (by omega)).mp h
        refine ⟨r :: rs, ?_, List.forall_mem_cons.mpr ⟨hr, hrs⟩, ?_, hlast⟩
        · rw [List.flatten_cons, ← hflat, hdrop, hrest]
        · rw [List.map_cons, List.foldlM_cons, hc']
          exact hfold
      · rintro ⟨rs, hflat, hrs, hfold, hlast⟩
        cases rs with
        | nil =>
          have := List.drop_eq_nil_iff.mp hflat
          omega
        | cons r rs =>
          obtain ⟨hr, hrs⟩ := List.forall_mem_cons.mp hrs
          rw [List.map_cons, List.foldlM_cons] at hfold
          obtain ⟨c', hc', hfold⟩ := bind_eq_ok.mp hfold
          obtain ⟨hdrop, hle⟩ := drop_of_append hflat.symm
          have hsize := hr.1
          refine ⟨r, c', hr, ⟨_, hflat.symm⟩, hc', ?_⟩
          exact (ih _ _ (by omega) (by omega)).mpr ⟨rs, hdrop, hrs, hfold, hlast⟩
    · obtain rfl : offset = p.length := by omega
      rw [receiveLoop, if_neg hlt]
      exact records_at_end p c x

/-! ### The descriptors -/

/-- The epochs in the records for descriptor `i`. -/
def epochsFor (hs : List RequestHeader) (i : Nat) : List (BitVec 16) :=
  (hs.filter fun h => h.rdIdx = i).map (·.epoch)

/-- A descriptor that gets responses with these epochs takes the first one in its own epoch. It needs
a promise for it. No response in the next epoch may follow, since it has no promise for that. -/
def Expects (d : RequestDescriptor Nat) (es : List (BitVec 16)) : Prop :=
  d.epoch ∈ es → d.pr.isSome ∧ d.epoch + 1 ∉ (es.dropWhile (· != d.epoch)).tail

/-- The client has a descriptor for each of these responses, and it expects them. -/
structure Answerable (rds : Rds) (hs : List RequestHeader) : Prop where
  index : ∀ h ∈ hs, h.rdIdx < totalRequestDescriptorCount
  expects : ∀ i d, rds[i]? = some d → Expects d (epochsFor hs i)

/-- A descriptor expects it when there is no response for it. -/
theorem expects_nil (d : RequestDescriptor Nat) : Expects d [] := nofun

/-- A response in another epoch does not matter. -/
theorem expects_cons_of_ne {d : RequestDescriptor Nat} {e : BitVec 16} (h : e ≠ d.epoch)
    (es : List (BitVec 16)) : Expects d (e :: es) ↔ Expects d es := by
  simp only [Expects, List.mem_cons, h.symm, false_or]
  rw [List.dropWhile_cons_of_pos (by simpa using h)]

/-- After a response in its epoch, the descriptor expects the rest without a promise. -/
theorem expects_cons_epoch (d : RequestDescriptor Nat) (es : List (BitVec 16)) :
    Expects d (d.epoch :: es) ↔ d.pr.isSome ∧ Expects d.normalRecyclePrep es := by
  have hhead : (d.epoch :: es).dropWhile (· != d.epoch) = d.epoch :: es :=
    List.dropWhile_cons_of_neg (by simp)
  simp only [Expects, hhead, List.mem_cons_self, true_imp_iff, List.tail_cons,
    RequestDescriptor.normalRecyclePrep, Option.isSome_none, Bool.false_eq_true, false_and,
    imp_false]

/-- The descriptor after a response in the epoch `e`. -/
def afterResponse (d : RequestDescriptor Nat) (e : BitVec 16) : RequestDescriptor Nat :=
  if e = d.epoch then d.normalRecyclePrep else d

/-- The client takes a record whose descriptor exists, and has a promise if the epoch is right. -/
theorem receiveRecord_eq_ok {c c' : MicaClient} {r : ResponseRecord}
    (h : c.receiveRecord r = .ok c') :
    ∃ d, c.rds[r.rh.rdIdx]? = some d ∧ (r.rh.epoch = d.epoch → d.pr.isSome) ∧
      c'.rds = c.rds.set r.rh.rdIdx (afterResponse d r.rh.epoch) := by
  rw [receiveRecord] at h
  obtain ⟨d, hd, h⟩ := bind_eq_ok.mp h
  have hd : c.rds[r.rh.rdIdx]? = some d := by
    rw [getRd] at hd
    split at hd
    · cases hd
    · next h' =>
      cases hd
      exact h'
  refine ⟨d, hd, ?_⟩
  rw [RequestDescriptor.matchResponse] at h
  by_cases hepoch : r.rh.epoch = d.epoch
  · rw [if_neg (not_not.mpr hepoch)] at h
    cases hpr : d.pr with
    | none =>
      rw [hpr] at h
      cases h
    | some q =>
      rw [hpr] at h
      cases h
      refine ⟨fun _ => rfl, ?_⟩
      rw [afterResponse, if_pos hepoch]
      rfl
  · rw [if_pos hepoch] at h
    cases h
    refine ⟨fun he => absurd he hepoch, ?_⟩
    rw [afterResponse, if_neg hepoch]
    rfl

/-- A record for a descriptor that has a promise, or of an old epoch, is received. -/
theorem exists_receiveRecord {c : MicaClient} {r : ResponseRecord} {d : RequestDescriptor Nat}
    (hd : c.rds[r.rh.rdIdx]? = some d) (hpr : r.rh.epoch = d.epoch → d.pr.isSome) :
    ∃ c', c.receiveRecord r = .ok c' := by
  rw [receiveRecord, getRd_eq_ok hd, ok_bind, RequestDescriptor.matchResponse]
  by_cases hepoch : r.rh.epoch = d.epoch
  · rw [if_neg (not_not.mpr hepoch)]
    obtain ⟨q, hq⟩ := Option.isSome_iff_exists.mp (hpr hepoch)
    rw [hq]
    exact ⟨_, rfl⟩
  · rw [if_pos hepoch]
    exact ⟨_, rfl⟩

/-- A response to its own descriptor. -/
theorem expects_cons (d : RequestDescriptor Nat) (e : BitVec 16) (es : List (BitVec 16)) :
    Expects d (e :: es) ↔
      (e = d.epoch → d.pr.isSome) ∧ Expects (afterResponse d e) es := by
  by_cases he : e = d.epoch
  · rw [he, expects_cons_epoch, afterResponse, if_pos rfl]
    simp
  · rw [expects_cons_of_ne he, afterResponse, if_neg he]
    simp [he]

/-- No record at all can be answered. -/
theorem answerable_nil (rds : Rds) : Answerable rds [] :=
  ⟨nofun, fun _ d _ => expects_nil d⟩

/-- What the first response needs, and what it leaves for the others. -/
theorem answerable_cons {rds : Rds} (hlen : rds.length = totalRequestDescriptorCount)
    (h : RequestHeader) (hs : List RequestHeader) :
    Answerable rds (h :: hs) ↔
      ∃ d, rds[h.rdIdx]? = some d ∧ (h.epoch = d.epoch → d.pr.isSome) ∧
        Answerable (rds.set h.rdIdx (afterResponse d h.epoch)) hs := by
  have hown : epochsFor (h :: hs) h.rdIdx = h.epoch :: epochsFor hs h.rdIdx := by
    simp [epochsFor]
  have hother : ∀ i, i ≠ h.rdIdx → epochsFor (h :: hs) i = epochsFor hs i := by
    intro i hi
    simp [epochsFor, hi.symm]
  constructor
  · rintro ⟨hindex, hexpects⟩
    obtain ⟨hlt, hindex⟩ := List.forall_mem_cons.mp hindex
    rw [← hlen] at hlt
    have hd := List.getElem?_eq_getElem hlt
    have hfirst := hexpects _ _ hd
    rw [hown, expects_cons] at hfirst
    refine ⟨_, hd, hfirst.1, hindex, ?_⟩
    intro i d' hd'
    by_cases hi : i = h.rdIdx
    · subst hi
      rw [List.getElem?_set_self hlt] at hd'
      cases hd'
      exact hfirst.2
    · rw [List.getElem?_set_ne (Ne.symm hi)] at hd'
      rw [← hother i hi]
      exact hexpects i d' hd'
  · rintro ⟨d, hd, hpr, hindex, hexpects⟩
    have hlt := (List.getElem?_eq_some_iff.mp hd).1
    refine ⟨List.forall_mem_cons.mpr ⟨hlen ▸ hlt, hindex⟩, ?_⟩
    intro i d' hd'
    by_cases hi : i = h.rdIdx
    · subst hi
      rw [hd] at hd'
      cases hd'
      rw [hown, expects_cons]
      exact ⟨hpr, hexpects _ _ (List.getElem?_set_self hlt)⟩
    · rw [hother i hi]
      exact hexpects i d' (by rw [List.getElem?_set_ne (Ne.symm hi), hd'])

/-- The client takes a list of records if and only if its descriptors expect them. -/
theorem foldlM_receiveRecord (rs : List ResponseRecord) (c : MicaClient)
    (hlen : c.rds.length = totalRequestDescriptorCount) :
    (∃ c', rs.foldlM receiveRecord c = .ok c') ↔ Answerable c.rds (rs.map (·.rh)) := by
  induction rs generalizing c with
  | nil => exact ⟨fun _ => answerable_nil _, fun _ => ⟨c, rfl⟩⟩
  | cons r rs ih =>
    rw [List.map_cons, answerable_cons hlen]
    constructor
    · rintro ⟨c', h⟩
      rw [List.foldlM_cons] at h
      obtain ⟨c₁, hr, hrest⟩ := bind_eq_ok.mp h
      obtain ⟨d, hd, hpr, hrds⟩ := receiveRecord_eq_ok hr
      refine ⟨d, hd, hpr, ?_⟩
      rw [← hrds]
      exact (ih c₁ (by rw [hrds, List.length_set, hlen])).mp ⟨c', hrest⟩
    · rintro ⟨d, hd, hpr, hrest⟩
      obtain ⟨c₁, hr⟩ := exists_receiveRecord hd hpr
      obtain ⟨d', hd', -, hrds⟩ := receiveRecord_eq_ok hr
      rw [hd] at hd'
      cases hd'
      rw [← hrds] at hrest
      obtain ⟨c', hc'⟩ := (ih c₁ (by rw [hrds, List.length_set, hlen])).mpr hrest
      refine ⟨c', ?_⟩
      rw [List.foldlM_cons, hr]
      exact hc'

/-! ### The packet -/

/-- The client receives the packet without leaving the packet or its tables, and it ends where the
packet ends. -/
def ReceivesWhole (p : List UInt8) (c : MicaClient) : Prop :=
  ∃ c', receive p 1 c = .ok (c', some p.length)

/-- `receive` terminates on any response. It stays inside the packet and its tables, and walks to the
end, if and only if the bytes after the batch header are records, one after the other, and the
descriptors of the client expect these records. -/
theorem receive_correct_iff (p : List UInt8) (c : MicaClient) (hvalid : isValid p = true)
    (hresponse : isResponse p = true) (hlen : c.rds.length = totalRequestDescriptorCount) :
    receive p 1 c ≠ .error (.packet .outOfFuel) ∧
      (ReceivesWhole p c ↔
        ∃ rs : List (List UInt8), p.drop requestBatchHeaderSize = rs.flatten ∧
          (∀ r ∈ rs, IsRecord r) ∧ Answerable c.rds (rs.map fun r => (recordOf r).rh)) := by
  have hlong : requestBatchHeaderSize ≤ p.length := ((isValid_iff p).mp hvalid).1.long
  have hloop : receive p 1 c =
      (receiveLoop p p.length requestBatchHeaderSize c).map fun x => (x.1, some x.2) := by
    rw [receive, hvalid, hresponse]
    cases receiveLoop p p.length requestBatchHeaderSize c with
    | error e => rfl
    | ok x => rfl
  have hok := fun x => receiveLoop_eq_ok (p := p) x p.length requestBatchHeaderSize c hlong
    (Nat.le_add_left _ _)
  constructor
  · have hfuel := receiveLoop_ne_outOfFuel p p.length requestBatchHeaderSize c (Nat.le_add_left _ _)
    rw [hloop]
    cases h : receiveLoop p p.length requestBatchHeaderSize c with
    | error e =>
      rw [h] at hfuel
      exact fun he => hfuel (by cases he; rfl)
    | ok x => exact fun he => by cases he
  · have hrecords : ∀ rs : List (List UInt8),
        (∃ c', (rs.map recordOf).foldlM receiveRecord c = .ok c') ↔
          Answerable c.rds (rs.map fun r => (recordOf r).rh) := by
      intro rs
      rw [foldlM_receiveRecord _ c hlen, List.map_map]
      rfl
    rw [ReceivesWhole, hloop]
    constructor
    · rintro ⟨c', h⟩
      cases hend : receiveLoop p p.length requestBatchHeaderSize c with
      | error e =>
        rw [hend] at h
        cases h
      | ok x =>
        obtain ⟨rs, hflat, hrs, hfold, -⟩ := (hok x).mp hend
        exact ⟨rs, hflat, hrs, (hrecords rs).mp ⟨_, hfold⟩⟩
    · rintro ⟨rs, hflat, hrs, hanswerable⟩
      obtain ⟨c', hfold⟩ := (hrecords rs).mpr hanswerable
      refine ⟨c', ?_⟩
      rw [(hok (c', p.length)).mpr ⟨rs, hflat, hrs, hfold, rfl⟩]
      rfl

/-- A response packet with these bytes after the batch header, for lengths that fit into one byte. -/
def responsePacket (records : List UInt8) : List UInt8 :=
  List.replicate 12 0 ++ [8, 0] ++
    [0x45, 0, 0, UInt8.ofNat (34 + records.length), 0, 0, 0, 0, 64, 17, 0, 0] ++
    List.replicate 8 0 ++ [0, 0, 0, 0, 0, UInt8.ofNat (14 + records.length), 0, 0] ++
    [0x79, 0, 0, 0, 0, 0] ++ records

/-- A record for descriptor 3 in epoch 1, with neither key nor value. -/
def lateRecord : List UInt8 := List.replicate 16 0 ++ [1, 0, 3, 0] ++ List.replicate 4 0

/-- The client that just booted up receives a late record whole. -/
theorem receivesWhole_lateRecord :
    ReceivesWhole (responsePacket lateRecord) (bootup 1 fun _ => ⟨0, 0, 0, 0, 0, 0, 0⟩) := by
  have hlen : (bootup 1 fun _ => ⟨0, 0, 0, 0, 0, 0, 0⟩).rds.length = totalRequestDescriptorCount := by
    rw [bootup, List.length_map, List.length_range]
  apply (receive_correct_iff _ _ (by decide) (by decide) hlen).2.mpr
  have hidx : (recordOf lateRecord).rh.rdIdx = 3 := by decide
  refine ⟨[lateRecord], by decide, by decide, ?_, ?_⟩
  · rw [List.map_singleton, List.forall_mem_singleton, hidx]
    exact (by decide : 3 < 2048)
  intro i d hd hmem
  -- A new descriptor is in epoch 0, and the record in epoch 1.
  have hepoch : d.epoch = 0 := by
    rw [bootup] at hd
    dsimp only at hd
    rw [List.getElem?_map] at hd
    obtain ⟨j, -, rfl⟩ := Option.map_eq_some_iff.mp hd
    rfl
  obtain ⟨rh, hrh, heq⟩ := List.mem_map.mp hmem
  rw [hepoch, List.mem_singleton.mp (List.mem_of_mem_filter hrh)] at heq
  exact absurd heq (by decide)

/-- 8 bytes are less than a header, so `get_header` returns a null pointer. -/
theorem not_receivesWhole_eight_bytes :
    isValid (responsePacket (List.replicate 8 0)) = true ∧
      isResponse (responsePacket (List.replicate 8 0)) = true ∧
      receive (responsePacket (List.replicate 8 0)) 1 (bootup 1 fun _ => ⟨0, 0, 0, 0, 0, 0, 0⟩) =
        .error (.packet .nullHeader) ∧
      ¬ReceivesWhole (responsePacket (List.replicate 8 0))
        (bootup 1 fun _ => ⟨0, 0, 0, 0, 0, 0, 0⟩) := by
  have hvalid : isValid (responsePacket (List.replicate 8 0)) = true := by decide
  have hresponse : isResponse (responsePacket (List.replicate 8 0)) = true := by decide
  have hlen : (responsePacket (List.replicate 8 0)).length = 55 + 1 := by decide
  have hheader : getHeader (responsePacket (List.replicate 8 0)) requestBatchHeaderSize
      requestHeaderSize = none := by decide
  have hreceive : receive (responsePacket (List.replicate 8 0)) 1
      (bootup 1 fun _ => ⟨0, 0, 0, 0, 0, 0, 0⟩) = .error (.packet .nullHeader) := by
    rw [receive, hvalid, hresponse, hlen, receiveLoop, hheader, hlen, if_neg (by decide),
      if_pos (by decide)]
  refine ⟨hvalid, hresponse, hreceive, ?_⟩
  rintro ⟨c, hc⟩
  rw [hreceive] at hc
  cases hc

end Netstar.Proofs.Mica
