import Netstar.Lib.Result
import Netstar.Spec.Mica.MicaClient

/-!
# `Netstar.Proofs.Mica.RequestAssembler`: what a request assembler does

Between two calls the send stream of an assembler is empty. A call sends the descriptors `sent` that
it has collected, or none of them, and keeps the rest. It arms the timers of the descriptors that it
sent. `AssemblerStep` has this for the two calls that a client makes.
-/

set_option autoImplicit false

namespace Netstar.Proofs.Mica

open Netstar.Lib (ok_bind)
open Netstar.Spec.Mica
open Netstar.Spec.Mica.RequestAssembler

/-- The request that descriptor `i` adds to a packet. -/
def sentRequest (i : Nat) (d : RequestDescriptor Nat) : SentRequest :=
  ⟨i, d.rqHd, d.appendFrags, d.pr⟩

/-- The requests that these descriptors add to a packet. -/
def sentRequests (rds : Rds) (is : List Nat) : List SentRequest :=
  is.filterMap fun i => rds[i]?.map (sentRequest i)

/-- The descriptors after the timers at these indexes were armed. -/
def armAll (is : List Nat) (rds : Rds) : Rds :=
  rds.mapIdx fun k d => if k ∈ is then { d with toArmed := true } else d

/-- Arming the timers keeps the number of descriptors. -/
@[simp] theorem length_armAll (is : List Nat) (rds : Rds) : (armAll is rds).length = rds.length :=
  List.length_mapIdx

/-- Arming the timers changes the descriptors of the list only. -/
theorem getElem?_armAll (is : List Nat) (rds : Rds) (k : Nat) :
    (armAll is rds)[k]? =
      rds[k]?.map fun d => if k ∈ is then { d with toArmed := true } else d :=
  List.getElem?_mapIdx

/-- Arming no timer changes nothing. -/
theorem armAll_nil (rds : Rds) : armAll [] rds = rds := by
  apply List.ext_getElem?
  simp [getElem?_armAll]

/-- The descriptors at these indexes exist, and their timers are not armed. -/
def Unarmed (rds : Rds) (is : List Nat) : Prop :=
  ∀ i ∈ is, ∃ d, rds[i]? = some d ∧ d.toArmed = false

/-- A descriptor that exists can be read. -/
theorem getRd_eq_ok {rds : Rds} {i : Nat} {d : RequestDescriptor Nat} (h : rds[i]? = some d) :
    getRd rds i = .ok d := by
  rw [getRd, h]

/-- The fragments of descriptors without an armed timer can be appended. -/
theorem appendFrags_eq_ok {rds : Rds} {is : List Nat} (his : Unarmed rds is) :
    appendFrags rds is = .ok (sentRequests rds is) := by
  induction is with
  | nil => rfl
  | cons i is ih =>
    obtain ⟨d, hd, -⟩ := his i (by simp)
    have hrest := ih (fun k hk => his k (by simp [hk]))
    simp only [appendFrags, getRd_eq_ok hd, ok_bind, hrest, sentRequests, List.filterMap_cons, hd]
    rfl

/-- The timers of distinct descriptors without an armed timer can be armed. -/
theorem armTimers_eq_ok {is : List Nat} {rds : Rds} (hnodup : is.Nodup) (his : Unarmed rds is) :
    armTimers is rds = .ok (armAll is rds) := by
  induction is generalizing rds with
  | nil =>
    rw [armAll_nil]
    rfl
  | cons i is ih =>
    obtain ⟨hnew, hnodup⟩ := List.nodup_cons.mp hnodup
    obtain ⟨d, hd, hunarmed⟩ := his i (by simp)
    have harm : d.armTimer = .ok { d with toArmed := true } := by
      simp [RequestDescriptor.armTimer, hunarmed]
    have hrest : armTimers is (rds.set i { d with toArmed := true }) =
        .ok (armAll is (rds.set i { d with toArmed := true })) := by
      refine ih hnodup (fun k hk => ?_)
      have hki : i ≠ k := by
        rintro rfl
        exact hnew hk
      rw [List.getElem?_set_ne hki]
      exact his k (by simp [hk])
    have hsame : armAll is (rds.set i { d with toArmed := true }) = armAll (i :: is) rds := by
      apply List.ext_getElem?
      intro k
      rw [getElem?_armAll, getElem?_armAll]
      by_cases hki : i = k
      · subst hki
        rw [List.getElem?_set_self (List.getElem?_eq_some_iff.mp hd).1, hd]
        simp [hnew]
      · rw [List.getElem?_set_ne hki]
        simp [Ne.symm hki]
    rw [armTimers, getRd_eq_ok hd, ok_bind, harm, ok_bind, ← hsame]
    exact hrest

/-- `send_request_packet` sends what the assembler has collected. -/
theorem sendRequestPacket_eq_ok {idxs : List Nat} {rds : Rds} (hnodup : idxs.Nodup)
    (his : Unarmed rds idxs) (remaining : Nat) (stream : List Nat) :
    sendRequestPacket ⟨remaining, idxs, stream⟩ rds =
      .ok (⟨maxReqLen, [], stream⟩, armAll idxs rds, [.sendPacket (sentRequests rds idxs)]) := by
  simp only [sendRequestPacket, appendFrags_eq_ok his, armTimers_eq_ok hnodup his]
  rfl

/-- The call sends the descriptors `sent` that the assembler has collected, or nothing at all, keeps
the others, and appends `new`. -/
def AssemblerStep (ra : RequestAssembler) (rds : Rds) (new : List Nat)
    (result : Except MicaError (RequestAssembler × Rds × List ClientEffect)) : Prop :=
  ∃ sent kept size es, ra.rdIdxs = sent ++ kept ∧
    result = .ok (⟨size, kept ++ new, []⟩, armAll sent rds, es) ∧
    (sent = [] ∧ es = [] ∨ es = [.sendPacket (sentRequests rds sent)])

section Calls

variable {ra : RequestAssembler} {rds : Rds} (hstream : ra.sendStream = [])
  (hnodup : ra.rdIdxs.Nodup) (his : Unarmed rds ra.rdIdxs)

include hstream hnodup his

/-- Appending a descriptor is a step of the assembler that takes it in. -/
theorem assemblerStep_appendNewRequestDescriptor {i : Nat} {d : RequestDescriptor Nat}
    (hd : rds[i]? = some d) (hsize : d.requestSize ≤ maxReqLen) :
    AssemblerStep ra rds [i] (ra.appendNewRequestDescriptor i rds) := by
  obtain ⟨remaining, idxs, stream⟩ := ra
  cases hstream
  simp only [appendNewRequestDescriptor, consumeSendStream, List.nil_append, consumeLoop,
    getRd_eq_ok hd, ok_bind, makeRoom]
  by_cases hfull : remaining < d.requestSize
  case pos =>
    rw [if_pos hfull, sendRequestPacket_eq_ok hnodup his]
    refine ⟨idxs, [], maxReqLen - d.requestSize, [.sendPacket (sentRequests rds idxs)],
      (List.append_nil _).symm, ?_, .inr rfl⟩
    change (if maxReqLen < d.requestSize then _ else _) = _
    rw [if_neg (Nat.not_lt.mpr hsize)]
    rfl
  case neg =>
    rw [if_neg hfull]
    refine ⟨[], idxs, remaining - d.requestSize, [], rfl, ?_, .inl ⟨rfl, rfl⟩⟩
    change (if remaining < d.requestSize then _ else _) = _
    rw [if_neg hfull, armAll_nil]
    rfl

/-- A check is a step of the assembler that takes nothing in. -/
theorem assemblerStep_check : AssemblerStep ra rds [] (ra.check rds) := by
  obtain ⟨remaining, idxs, stream⟩ := ra
  cases hstream
  by_cases hsome : 0 < idxs.length
  case pos =>
    refine ⟨idxs, [], maxReqLen, [.sendPacket (sentRequests rds idxs)], (List.append_nil _).symm,
      ?_, .inr rfl⟩
    change (forceSend ⟨remaining, idxs, []⟩ rds >>= _) = _
    rw [forceSend, if_pos hsome, sendRequestPacket_eq_ok hnodup his]
    rfl
  case neg =>
    refine ⟨[], idxs, remaining, [], rfl, ?_, .inl ⟨rfl, rfl⟩⟩
    change (forceSend ⟨remaining, idxs, []⟩ rds >>= _) = _
    rw [forceSend, if_neg hsome, armAll_nil, List.append_nil]
    rfl

end Calls

end Netstar.Proofs.Mica
