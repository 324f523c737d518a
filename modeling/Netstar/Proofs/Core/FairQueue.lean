import Mathlib.Data.List.Count
import Mathlib.Data.List.Nodup
import Mathlib.Data.List.Perm.Basic
import Netstar.Lib.Result
import Netstar.Proofs.Core.Semaphore
import Netstar.Spec.Core.FairQueue

/-!
# `Netstar.Proofs.Core.FairQueue`: every slot finds a request

A call of `queue` adds one request and one slot, and a slot takes one request. So the requests that
were not dispatched are as many as the slots that are ready or wait in the semaphore, whatever classes
they belong to. A class with requests is in `_handles`, so the loop of `execute_one` ends at one of
them, before it runs out of classes.
-/

set_option autoImplicit false

namespace Netstar.Proofs.Core.FairQueue

open Netstar.Lib
open Netstar.Spec.Core
open Netstar.Spec.Core.FairQueue
open Netstar.Proofs.Core.Semaphore (Units)

variable {κ : Type} [DecidableEq κ] {fq : FairQueue κ} {s t : Session κ}

/-! ### Classes in the heap -/

/-- `_handles` and the flags of the classes. -/
structure Handles (fq : FairQueue κ) : Prop where
  nodup : fq.handles.Nodup
  queued : ∀ c, fq.queued c = true ↔ c ∈ fq.handles

/-- A class is in the handles when it has requests. -/
theorem Handles.push (h : Handles fq) (pc : κ) :
    Handles (fq.pushPriorityClass pc) ∧
      ∀ c, c ∈ (fq.pushPriorityClass pc).handles ↔ c ∈ fq.handles ∨ c = pc := by
  rw [pushPriorityClass]
  by_cases hqueued : fq.queued pc = true
  · rw [if_neg (by rw [hqueued]; decide)]
    refine ⟨h, fun c => ⟨.inl, ?_⟩⟩
    rintro (hc | rfl)
    · exact hc
    · exact (h.queued c).mp hqueued
  · have hnot : pc ∉ fq.handles := fun hmem => hqueued ((h.queued pc).mpr hmem)
    rw [if_pos (by simpa using hqueued)]
    refine ⟨⟨?_, fun c => ?_⟩, fun c => by simp⟩
    · refine List.nodup_append.mpr ⟨h.nodup, List.nodup_singleton pc, ?_⟩
      rintro c hc c' hc' rfl
      obtain rfl := List.mem_singleton.mp hc'
      exact hnot hc
    · show Function.update fq.queued pc true c = true ↔ c ∈ fq.handles ++ [pc]
      by_cases hc : c = pc
      · simp [hc]
      · simp [hc, h.queued]

/-- The requests do not move when a class gets its turn. -/
@[simp] theorem pushPriorityClass_queues (fq : FairQueue κ) (pc : κ) :
    (fq.pushPriorityClass pc).queues = fq.queues := by
  rw [pushPriorityClass]
  split <;> rfl

/-- A class that gets its turn takes no units. -/
@[simp] theorem pushPriorityClass_sem (fq : FairQueue κ) (pc : κ) :
    (fq.pushPriorityClass pc).sem = fq.sem := by
  rw [pushPriorityClass]
  split <;> rfl

/-- A pop takes one class out of the heap. -/
theorem Handles.pop (h : Handles fq) (hne : fq.handles ≠ []) (pick : Nat) :
    ∃ fq' c, fq.popPriorityClass pick = .ok (fq', c) ∧ Handles fq' ∧ c ∈ fq.handles ∧
      (∀ d, d ∈ fq'.handles ↔ d ∈ fq.handles ∧ d ≠ c) ∧
      fq'.handles.length + 1 = fq.handles.length ∧ fq'.queues = fq.queues ∧ fq'.sem = fq.sem := by
  have hpos := List.length_pos_of_ne_nil hne
  have hlt : pick % fq.handles.length < fq.handles.length := Nat.mod_lt _ hpos
  generalize hi : pick % fq.handles.length = i at hlt
  have hget : fq.handles[i]? = some (fq.handles.get ⟨i, hlt⟩) := List.getElem?_eq_getElem hlt
  generalize fq.handles.get ⟨i, hlt⟩ = c at hget
  have hmem : c ∈ fq.handles := List.mem_of_getElem? hget
  have herase : fq.handles.eraseIdx i = fq.handles.erase c := by
    obtain ⟨_, heq⟩ := List.getElem?_eq_some_iff.mp hget
    rw [← heq, h.nodup.erase_getElem i hlt]
  have hqueued : fq.queued c = true := (h.queued c).mpr hmem
  rw [popPriorityClass, hi, hget]
  dsimp only
  rw [if_pos hqueued]
  refine ⟨_, c, rfl, ⟨?_, fun d => ?_⟩, hmem, fun d => ?_, ?_, rfl, rfl⟩
  · show (fq.handles.eraseIdx i).Nodup
    rw [herase]
    exact h.nodup.erase c
  · show Function.update fq.queued c false d = true ↔ d ∈ fq.handles.eraseIdx i
    rw [herase, h.nodup.mem_erase_iff]
    by_cases hd : d = c
    · simp [hd]
    · simp [hd, h.queued]
  · show d ∈ fq.handles.eraseIdx i ↔ _
    rw [herase, h.nodup.mem_erase_iff]
    exact And.comm
  · show (fq.handles.eraseIdx i).length + 1 = fq.handles.length
    rw [List.length_eraseIdx, if_pos hlt]
    omega

/-- The loop of `execute_one` ends at a class with requests. -/
theorem Handles.popLoop {bound : Nat} {picks : List Nat} {fq : FairQueue κ} (h : Handles fq)
    (hsome : ∃ c ∈ fq.handles, fq.queues c ≠ []) (hbound : fq.handles.length ≤ bound) :
    ∃ fq' c, fq.popLoop picks bound = .ok (fq', c) ∧ Handles fq' ∧ fq.queues c ≠ [] ∧
      c ∉ fq'.handles ∧ (∀ d ∈ fq.handles, fq.queues d ≠ [] → d ≠ c → d ∈ fq'.handles) ∧
      fq'.queues = fq.queues ∧ fq'.sem = fq.sem := by
  induction bound generalizing picks fq with
  | zero =>
    obtain ⟨c, hc, -⟩ := hsome
    rw [List.length_eq_zero_iff.mp (Nat.le_zero.mp hbound)] at hc
    cases hc
  | succ bound ih =>
    obtain ⟨c₀, hc₀, hne₀⟩ := hsome
    obtain ⟨fq₁, c, hpop, h₁, hc, hmem, hlen, hqueues, hsem⟩ :=
      h.pop (List.ne_nil_of_mem hc₀) (picks.headD 0)
    rw [FairQueue.popLoop, hpop]
    show ∃ fq' c', (if (fq₁.queues c).isEmpty then fq₁.popLoop picks.tail bound else .ok (fq₁, c)) =
      .ok (fq', c') ∧ _
    by_cases hempty : fq.queues c = []
    · have hcc : c₀ ≠ c := by
        rintro rfl
        exact hne₀ hempty
      obtain ⟨fq', c', hloop, h', hne, hnot, hkeep, hqueues', hsem'⟩ := @ih picks.tail fq₁ h₁
        ⟨c₀, (hmem c₀).mpr ⟨hc₀, hcc⟩, by rw [hqueues]; exact hne₀⟩ (by omega)
      rw [if_pos (by rw [hqueues, hempty]; rfl), hloop]
      rw [hqueues] at hne hkeep hqueues'
      refine ⟨fq', c', rfl, h', hne, hnot, fun d hd hdne hdc => ?_, hqueues', hsem'.trans hsem⟩
      have hdc' : d ≠ c := by
        rintro rfl
        exact hdne hempty
      exact hkeep d ((hmem d).mpr ⟨hd, hdc'⟩) hdne hdc
    · rw [if_neg (by rw [hqueues]; simpa using hempty)]
      exact ⟨fq₁, c, rfl, h₁, hempty, fun hin => ((hmem c).mp hin).2 rfl,
        fun d hd _ hdc => (hmem d).mpr ⟨hd, hdc⟩, hqueues, hsem⟩

/-- A slot dispatches the first request of a class. -/
theorem dispatch_spec (h : Handles fq) (hhandled : ∀ c, fq.queues c ≠ [] → c ∈ fq.handles)
    (hsome : ∃ c, fq.queues c ≠ []) (picks : List Nat) :
    ∃ fq' c req queue, fq.dispatch picks = .ok (fq', c, req) ∧ Handles fq' ∧
      fq.queues c = req :: queue ∧ fq'.queues = Function.update fq.queues c queue ∧
      fq'.sem = fq.sem ∧ ∀ d, fq'.queues d ≠ [] → d ∈ fq'.handles := by
  obtain ⟨c₀, hne₀⟩ := hsome
  obtain ⟨fq₁, c, hloop, h₁, hne, hnot, hkeep, hqueues, hsem⟩ :=
    @Handles.popLoop κ _ (fq.handles.length + 1) picks fq h ⟨c₀, hhandled c₀ hne₀, hne₀⟩ (Nat.le_succ _)
  obtain ⟨req, queue, hcons⟩ := List.exists_cons_of_ne_nil hne
  -- A class that still has requests is on the heap, or it is `c`, which is pushed again.
  have hothers : ∀ d, Function.update fq.queues c queue d ≠ [] → d = c ∧ queue ≠ [] ∨
      d ∈ fq₁.handles := by
    intro d hd
    by_cases hdc : d = c
    · subst hdc
      rw [Function.update_self] at hd
      exact .inl ⟨rfl, hd⟩
    · rw [Function.update_of_ne hdc] at hd
      exact .inr (hkeep d (hhandled d hd) hd hdc)
  have hrest : Handles { fq₁ with queues := Function.update fq₁.queues c queue } :=
    ⟨h₁.nodup, h₁.queued⟩
  rw [FairQueue.dispatch, hloop, ok_bind]
  dsimp only
  rw [hqueues, hcons]
  by_cases hempty : queue = []
  · subst hempty
    refine ⟨_, c, req, [], rfl, ⟨h₁.nodup, h₁.queued⟩, hcons, rfl, hsem, fun d hd => ?_⟩
    rcases hothers d hd with ⟨-, hne⟩ | hd
    · exact absurd rfl hne
    · exact hd
  · obtain ⟨hpush, hmem⟩ := hrest.push c
    refine ⟨_, c, req, queue, rfl, ?_, hcons, ?_, ?_, fun d hd => ?_⟩
    · rw [if_neg (by simpa using hempty), ← hqueues]
      exact hpush
    · rw [if_neg (by simpa using hempty), pushPriorityClass_queues]
    · rw [if_neg (by simpa using hempty), pushPriorityClass_sem]
      exact hsem
    · rw [if_neg (by simpa using hempty)] at hd ⊢
      rw [pushPriorityClass_queues] at hd
      rw [hqueues] at hmem
      refine (hmem d).mpr ?_
      rcases hothers d hd with ⟨hdc, -⟩ | hd
      · exact .inr hdc
      · exact .inl hd

/-! ### Requests -/

/-- The requests of a class in a log. -/
def ofClass (c : κ) (log : List (κ × Nat)) : List (κ × Nat) := log.filter (·.1 = c)

/-- A request is counted in its own class. -/
theorem count_ofClass (p : κ × Nat) (log : List (κ × Nat)) :
    (ofClass p.1 log).count p = log.count p := List.count_filter (by simp)

/-- Logs that agree on every class have the same length. -/
theorem length_eq_of_ofClass {log log' : List (κ × Nat)} (h : ∀ c, ofClass c log = ofClass c log') :
    log.length = log'.length := by
  refine (List.perm_iff_count.mpr fun p => ?_).length_eq
  rw [← count_ofClass, h, count_ofClass]

/-- What the users of a fair queue see. -/
structure Correct (s : Session κ) : Prop where
  noFault : s.fault = none
  handled : ∀ c, s.fq.queues c ≠ [] → s.fq.handles.count c = 1
  inOrder : ∀ c, ofClass c s.submitted = ofClass c s.dispatched ++ (s.fq.queues c).map (c, ·)
  once : s.submitted.Nodup ∧ s.dispatched.Nodup
  bounded : s.running.length + s.ready.length ≤ s.capacity.toNat
  busy : s.ready.length < s.waiting → s.running.length + s.ready.length = s.capacity.toNat

/-- The slots: free units, dispatched requests and slots that are ready make up the capacity, and
there is a slot for every request that was not dispatched. -/
structure Slots (s : Session κ) (free : Nat) (waiters : List Nat) : Prop where
  units : Units s.fq.sem free waiters
  capacity : free + (s.running.length + s.ready.length) = s.capacity.toNat
  requests : s.submitted.length = s.dispatched.length + (s.ready.length + waiters.length)
  full : waiters ≠ [] → free = 0

/-- The invariant of a session. -/
structure Inv (s : Session κ) : Prop where
  noFault : s.fault = none
  handles : Handles s.fq
  handled : ∀ c, s.fq.queues c ≠ [] → c ∈ s.fq.handles
  inOrder : ∀ c, ofClass c s.submitted = ofClass c s.dispatched ++ (s.fq.queues c).map (c, ·)
  numbered : ∀ p ∈ s.submitted, p.2 < s.calls
  nodup : s.submitted.Nodup
  slots : ∃ free waiters, Slots s free waiters

/-- A new queue has no requests, and all its slots are free. -/
theorem Inv.create (capacity : UInt32) : Inv (Session.create capacity : Session κ) where
  noFault := rfl
  handles := ⟨List.nodup_nil, fun c => by simp [Session.create, FairQueue.create]⟩
  handled := (fun c hc => absurd rfl hc)
  inOrder := fun _ => rfl
  numbered := (fun _ hp => nomatch hp)
  nodup := List.nodup_nil
  slots := by
    have hlt : capacity.toUInt64.toNat < 2 ^ 63 := by
      rw [UInt32.toNat_toUInt64]
      have := capacity.toNat_lt
      omega
    refine ⟨capacity.toNat, [], ?_, rfl, rfl, (fun hne => absurd rfl hne)⟩
    have hunits := Units.create hlt
    rwa [UInt32.toNat_toUInt64] at hunits

/-- In a state with the invariant the queue is right. -/
theorem Inv.correct (h : Inv s) : Correct s := by
  obtain ⟨free, waiters, hslots⟩ := h.slots
  have hcapacity := hslots.capacity
  have hrequests := hslots.requests
  refine ⟨h.noFault, fun c hc => List.count_eq_one_of_mem h.handles.nodup (h.handled c hc), h.inOrder,
    ⟨h.nodup, ?_⟩, by omega, fun hlt => ?_⟩
  · -- A request is dispatched at most as often as it was submitted.
    refine List.nodup_iff_count_le_one.mpr fun p => ?_
    refine Nat.le_trans ?_ (List.nodup_iff_count_le_one.mp h.nodup p)
    rw [← count_ofClass p s.submitted, h.inOrder, List.count_append, count_ofClass]
    exact Nat.le_add_right _ _
  · have hfree := hslots.full (by
      rintro rfl
      rw [Session.waiting, hrequests, List.length_nil] at hlt
      omega)
    omega

/-- There is a request for every slot. -/
theorem Inv.exists_request (h : Inv s) (hready : s.ready ≠ []) : ∃ c, s.fq.queues c ≠ [] := by
  obtain ⟨free, waiters, hslots⟩ := h.slots
  have hpos := List.length_pos_of_ne_nil hready
  have hrequests := hslots.requests
  refine Classical.byContradiction fun hnone => ?_
  have hlength : s.submitted.length = s.dispatched.length := by
    refine length_eq_of_ofClass fun c => ?_
    have hempty : s.fq.queues c = [] := Classical.byContradiction fun hne => hnone ⟨c, hne⟩
    rw [h.inOrder, hempty]
    simp
  omega

/-! ### Events -/

omit [DecidableEq κ] in
/-- A call of `execute_one` for a request that was just added: its slot is ready or waits. -/
theorem executeOne_slots (hslots : ∃ free waiters, Units s.fq.sem free waiters ∧
      free + (s.running.length + s.ready.length) = s.capacity.toNat ∧
      s.submitted.length = s.dispatched.length + (s.ready.length + waiters.length) + 1 ∧
      (waiters ≠ [] → free = 0)) (calls : Nat) :
    ∃ free waiters, Slots { s.executeOne with calls := calls } free waiters := by
  obtain ⟨free, waiters, hunits, hcapacity, hrequests, hfull⟩ := hslots
  rw [Session.executeOne]
  cases free with
  | zero =>
    obtain ⟨sem, hwait, hunits⟩ := hunits.wait_full s.calls
    rw [hwait]
    refine ⟨0, waiters ++ [s.calls], hunits, hcapacity, ?_, fun _ => rfl⟩
    show s.submitted.length = s.dispatched.length + (s.ready.length + (waiters ++ [s.calls]).length)
    rw [hrequests, List.length_append]
    rfl
  | succ free =>
    obtain rfl : waiters = [] := Classical.byContradiction fun hne => nomatch hfull hne
    obtain ⟨sem, hwait, hunits⟩ := hunits.wait_free s.calls
    rw [hwait]
    refine ⟨free, [], hunits, ?_, ?_, (fun hne => absurd rfl hne)⟩
    · show free + (s.running.length + (s.ready ++ [s.calls]).length) = s.capacity.toNat
      rw [← hcapacity, List.length_append, List.length_singleton]
      omega
    · show s.submitted.length = s.dispatched.length + ((s.ready ++ [s.calls]).length + 0)
      rw [hrequests, List.length_append, List.length_singleton, List.length_nil]
      omega

omit [DecidableEq κ] in
/-- `execute_one` only touches the semaphore and the slots that are ready. -/
theorem executeOne_eq (s : Session κ) : ∃ sem ready,
    s.executeOne = { s with fq.sem := sem, ready := ready } := by
  rw [Session.executeOne]
  generalize s.fq.sem.wait s.calls false 1 = r
  obtain ⟨sem, result⟩ := r
  cases result with
  | ready => exact ⟨sem, _, rfl⟩
  | failed ex => exact ⟨sem, s.ready, rfl⟩
  | waits => exact ⟨sem, s.ready, rfl⟩

/-- A request joins its class and waits for a slot. -/
theorem Inv.queue (h : Inv s) (pc : κ) : Inv (s.queue pc) := by
  obtain ⟨free, waiters, hslots⟩ := h.slots
  obtain ⟨hhandles, hmem⟩ := h.handles.push pc
  rw [Session.queue]
  dsimp only
  generalize hu : ({ s with
    fq := { s.fq.pushPriorityClass pc with
      queues := Function.update (s.fq.pushPriorityClass pc).queues pc
        ((s.fq.pushPriorityClass pc).queues pc ++ [s.calls]) }
    submitted := s.submitted ++ [(pc, s.calls)] } : Session κ) = u
  -- The new request takes a free unit, or it waits behind the others.
  have hfinal := @executeOne_slots κ u (by
    subst hu
    refine ⟨free, waiters, ?_, hslots.capacity, ?_, hslots.full⟩
    · show Units (s.fq.pushPriorityClass pc).sem free waiters
      rw [pushPriorityClass_sem]
      exact hslots.units
    · show (s.submitted ++ [(pc, s.calls)]).length = _
      rw [List.length_append, hslots.requests]
      rfl) (s.calls + 1)
  obtain ⟨sem, ready, hexecute⟩ := executeOne_eq u
  rw [hexecute] at hfinal ⊢
  subst hu
  refine ⟨h.noFault, ⟨hhandles.nodup, hhandles.queued⟩, fun c hc => ?_, fun c => ?_, fun p hp => ?_, ?_,
    hfinal⟩
  · refine (hmem c).mpr ?_
    by_cases heq : c = pc
    · exact .inr heq
    · have hc : Function.update (s.fq.pushPriorityClass pc).queues pc _ c ≠ [] := hc
      rw [Function.update_of_ne heq, pushPriorityClass_queues] at hc
      exact .inl (h.handled c hc)
  · have horder := h.inOrder c
    show ofClass c (s.submitted ++ [(pc, s.calls)]) = ofClass c s.dispatched ++
      (Function.update (s.fq.pushPriorityClass pc).queues pc _ c).map (c, ·)
    rw [ofClass, List.filter_append]
    show ofClass c s.submitted ++ _ = _
    rw [horder, pushPriorityClass_queues]
    by_cases heq : c = pc
    · subst heq
      simp
    · simp [heq, Ne.symm heq]
  · rcases List.mem_append.mp hp with hp | hp
    · exact Nat.lt_succ_of_lt (h.numbered p hp)
    · obtain rfl := List.mem_singleton.mp hp
      exact Nat.lt_succ_self _
  · refine List.nodup_append.mpr ⟨h.nodup, List.nodup_singleton _, ?_⟩
    rintro p hp p' hp' rfl
    obtain rfl := List.mem_singleton.mp hp'
    exact Nat.lt_irrefl _ (h.numbered _ hp)

/-- A request whose function cannot be stored leaves the queue as it is. -/
theorem Inv.queueThrows (h : Inv s) (pc : κ) : Inv { s with fq := s.fq.pushPriorityClass pc } := by
  obtain ⟨free, waiters, hslots⟩ := h.slots
  obtain ⟨hhandles, hmem⟩ := h.handles.push pc
  refine ⟨h.noFault, hhandles, fun c hc => ?_, fun c => ?_, h.numbered, h.nodup, free, waiters, ?_,
    hslots.capacity, hslots.requests, hslots.full⟩
  · rw [pushPriorityClass_queues] at hc
    exact (hmem c).mpr (.inl (h.handled c hc))
  · rw [pushPriorityClass_queues]
    exact h.inOrder c
  · rw [pushPriorityClass_sem]
    exact hslots.units

/-- A granted slot finds a request. -/
theorem Inv.run (h : Inv s) {i : Nat} (hi : i < s.ready.length) (picks : List Nat) :
    ∃ fq c req, s.fq.dispatch picks = .ok (fq, c, req) ∧ Inv { s with
      fq := fq
      ready := s.ready.eraseIdx i
      dispatched := s.dispatched ++ [(c, req)]
      running := s.running ++ [req] } := by
  obtain ⟨free, waiters, hslots⟩ := h.slots
  have hsome := h.exists_request (by
    intro hnil
    rw [hnil] at hi
    exact Nat.not_lt_zero i hi)
  obtain ⟨fq, c, req, queue, hdispatch, hhandles, hcons, hqueues, hsem, hhandled⟩ :=
    dispatch_spec h.handles h.handled hsome picks
  have hready : (s.ready.eraseIdx i).length + 1 = s.ready.length := by
    rw [List.length_eraseIdx, if_pos hi]
    omega
  refine ⟨fq, c, req, hdispatch, h.noFault, hhandles, hhandled, fun d => ?_, h.numbered, h.nodup, free,
    waiters, ?_, ?_, ?_, hslots.full⟩
  · have horder := h.inOrder d
    show ofClass d s.submitted = ofClass d (s.dispatched ++ [(c, req)]) ++ (fq.queues d).map (d, ·)
    rw [horder, hqueues, ofClass, ofClass, List.filter_append]
    by_cases heq : d = c
    · subst heq
      simp [hcons]
    · simp [heq, Ne.symm heq]
  · show Units fq.sem free waiters
    rw [hsem]
    exact hslots.units
  · have hcapacity := hslots.capacity
    show free + ((s.running ++ [req]).length + (s.ready.eraseIdx i).length) = s.capacity.toNat
    rw [List.length_append, List.length_singleton]
    omega
  · have hrequests := hslots.requests
    show s.submitted.length = (s.dispatched ++ [(c, req)]).length + ((s.ready.eraseIdx i).length + _)
    rw [List.length_append, List.length_singleton]
    omega

/-- A request that completes gives its slot back. -/
theorem Inv.complete (h : Inv s) {req : Nat} (hreq : req ∈ s.running) :
    ∃ t, { s with running := s.running.erase req }.signal = .ok t ∧ Inv t := by
  obtain ⟨free, waiters, hslots⟩ := h.slots
  have hcapacity := hslots.capacity
  have hrequests := hslots.requests
  have hrunning : (s.running.erase req).length + 1 = s.running.length := by
    have hpos := List.length_pos_of_mem hreq
    rw [List.length_erase_of_mem hreq]
    omega
  -- The count of the semaphore stays below the capacity, a 32-bit number.
  have hsmall := s.capacity.toNat_lt
  rw [Session.signal]
  cases waiters with
  | nil =>
    obtain ⟨sem, hsignal, hunits⟩ := hslots.units.signal_free (by omega)
    rw [hsignal]
    refine ⟨_, rfl, h.noFault, ⟨h.handles.nodup, h.handles.queued⟩, h.handled, h.inOrder, h.numbered,
      h.nodup, free + 1, [], hunits, ?_, ?_, (fun hne => absurd rfl hne)⟩
    · show free + 1 + ((s.running.erase req).length + (s.ready ++ []).length) = s.capacity.toNat
      rw [List.append_nil]
      omega
    · show s.submitted.length = s.dispatched.length + ((s.ready ++ []).length + 0)
      rw [List.append_nil]
      exact hrequests
  | cons w waiters =>
    -- While a request waits no unit is free, so the unit goes to the first waiter.
    have hfree := hslots.full (List.cons_ne_nil _ _)
    subst hfree
    obtain ⟨sem, hsignal, hunits⟩ := hslots.units.signal_waiter
    rw [hsignal]
    refine ⟨_, rfl, h.noFault, ⟨h.handles.nodup, h.handles.queued⟩, h.handled, h.inOrder, h.numbered,
      h.nodup, 0, waiters, hunits, ?_, ?_, fun _ => rfl⟩
    · show 0 + ((s.running.erase req).length + (s.ready ++ [w]).length) = s.capacity.toNat
      rw [List.length_append, List.length_singleton]
      omega
    · show s.submitted.length = s.dispatched.length + ((s.ready ++ [w]).length + waiters.length)
      rw [List.length_append, List.length_singleton]
      rw [List.length_cons] at hrequests
      omega

/-- Every step keeps the invariant. -/
theorem Inv.step (h : Inv s) {e : Event κ} (hstep : s.step e = some t) : Inv t := by
  rw [Session.step, if_neg (by rw [h.noFault]; decide)] at hstep
  cases e with
  | queue pc =>
    cases hstep
    exact h.queue pc
  | queueThrows pc =>
    cases hstep
    exact h.queueThrows pc
  | run i picks =>
    by_cases hi : i < s.ready.length
    · obtain ⟨fq, c, req, hdispatch, hinv⟩ := h.run hi picks
      rw [Session.perform, if_pos hi, hdispatch] at hstep
      cases hstep
      exact hinv
    · rw [Session.perform, if_neg hi] at hstep
      cases hstep
  | complete req ok =>
    by_cases hreq : req ∈ s.running
    · obtain ⟨t', hsignal, hinv⟩ := h.complete hreq
      rw [Session.perform, if_pos hreq, hsignal] at hstep
      cases hstep
      exact hinv
    · rw [Session.perform, if_neg hreq] at hstep
      cases hstep

/-- Every slot finds a request, requests are dispatched in the order of their class, and the capacity
is used. -/
theorem fairQueue_correct (capacity : UInt32) (es : List (Event κ)) :
    Always Session.step Correct (Session.create capacity) es := by
  have hguarded : Guarded Session.step (fun _ _ => True) (Session.create capacity : Session κ) es :=
    guarded_of_forall (fun _ _ _ => trivial) _
  exact always_of_guarded Inv (fun _ h => h.correct) (fun _ _ _ h _ hstep => h.step hstep)
    (Inv.create capacity) hguarded

/-- With capacity 1, the second request still waits when the first one is finished: its slot is ready,
but its continuation has not run. -/
theorem request_waits_for_ready_slot :
    ∃ s, run Session.step (Session.create 1 : Session Nat)
        [.queue 0, .run 0 [], .queue 0, .complete 0 true] = some s ∧
      s.running.length < s.capacity.toNat ∧ 0 < s.waiting := by
  obtain ⟨s, hrun, hrunning, hcapacity, hsubmitted, hdispatched⟩ : ∃ s,
      run Session.step (Session.create 1 : Session Nat) [.queue 0, .run 0 [], .queue 0] = some s ∧
        s.running = [0] ∧ s.capacity = 1 ∧ s.submitted.length = 2 ∧ s.dispatched.length = 1 :=
    ⟨_, rfl, rfl, rfl, rfl, rfl⟩
  have hinv : Inv s := run_invariant Inv (fun _ _ _ _ h hstep => h.step hstep) (Inv.create 1) hrun
  have hmem : 0 ∈ s.running := by
    rw [hrunning]
    decide
  obtain ⟨t, hsignal, -⟩ := hinv.complete hmem
  have hstep : s.step (.complete 0 true) = some t := by
    rw [Session.step, if_neg (by rw [hinv.noFault]; decide), Session.perform,
      if_pos hmem, hsignal]
  have hfields : t.running = s.running.erase 0 ∧ t.capacity = s.capacity ∧ t.waiting = s.waiting := by
    rw [Session.signal] at hsignal
    split at hsignal
    · cases hsignal
    · cases hsignal
      exact ⟨rfl, rfl, rfl⟩
  refine ⟨t, ?_, ?_, ?_⟩
  · exact run_append.mpr ⟨s, hrun, run_cons.mpr ⟨t, hstep, rfl⟩⟩
  · rw [hfields.1, hfields.2.1, hrunning, hcapacity]
    decide
  · rw [hfields.2.2, Session.waiting, hsubmitted, hdispatched]
    decide

end Netstar.Proofs.Core.FairQueue
