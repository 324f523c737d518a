import Mathlib.Data.List.Perm.Basic
import Netstar.Lib.Run
import Netstar.Proofs.Mica.MicaClient

/-!
# `Netstar.Proofs.Mica.Network`: what holds in every run of a client

`NetOk` relates a client and its network to a pool of slots that steps can reach. Every label keeps
this relation. So no call of the client fails, and what is known about pools holds for the client:
each descriptor is in one place, and each query is resolved once and by the right response.
-/

set_option autoImplicit false

namespace Netstar.Proofs.Mica

open Netstar.Lib
open Netstar.Lib.SlotPool
open Netstar.Spec.Mica

/-! ### Queries that wait -/

/-- The queries that have no descriptor yet. -/
def waitingQueries (c : MicaClient) : List WaitingQuery :=
  c.granted ++ c.pendingWorkQueue.waitList

/-- The queries that wait, out of `count` queries so far, have not been started yet. -/
structure WaitingOk (ws : List WaitingQuery) (count : Nat) (p : Pool (List UInt8)) : Prop where
  nodup : (ws.map (·.query)).Nodup
  unused : ∀ w ∈ ws, p.Unused w.query
  lt : ∀ w ∈ ws, w.query < count
  size : ∀ w ∈ ws, Network.requestSize w.request ≤ maxReqLen
  fresh : ∀ q, count ≤ q → p.Unused q

namespace WaitingOk

variable {ws ws' : List WaitingQuery} {count : Nat} {p p' : Pool (List UInt8)}

/-- The order of the waiting queries does not matter. -/
theorem perm (h : WaitingOk ws count p) (hperm : ws.Perm ws') : WaitingOk ws' count p where
  nodup := (hperm.map _).nodup_iff.mp h.nodup
  unused := fun w hw => h.unused w (hperm.mem_iff.mpr hw)
  lt := fun w hw => h.lt w (hperm.mem_iff.mpr hw)
  size := fun w hw => h.size w (hperm.mem_iff.mpr hw)
  fresh := h.fresh

/-- Queries that wait go on waiting while the pool makes progress. -/
theorem progress {limit : Nat} (h : WaitingOk ws count p)
    (hreach : Relation.ReflTransGen (Progress limit) p p') : WaitingOk ws count p' := by
  induction hreach with
  | refl => exact h
  | tail _ hstep ih =>
    exact ⟨ih.nodup, fun w hw => (ih.unused w hw).progress hstep, ih.lt, ih.size,
      fun q hq => (ih.fresh q hq).progress hstep⟩

/-- A new query gets the next number. -/
theorem push (h : WaitingOk ws count p) {request : Request}
    (hsize : Network.requestSize request ≤ maxReqLen) :
    WaitingOk (⟨count, request⟩ :: ws) (count + 1) p where
  nodup := by
    rw [List.map_cons, List.nodup_cons]
    refine ⟨fun hmem => ?_, h.nodup⟩
    obtain ⟨w, hw, hquery⟩ := List.mem_map.mp hmem
    exact Nat.ne_of_lt (h.lt w hw) hquery
  unused := by
    intro w hw
    rcases List.mem_cons.mp hw with rfl | hw
    · exact h.fresh count (Nat.le_refl count)
    · exact h.unused w hw
  lt := by
    intro w hw
    rcases List.mem_cons.mp hw with rfl | hw
    · exact Nat.lt_succ_self count
    · exact Nat.lt_succ_of_lt (h.lt w hw)
  size := by
    intro w hw
    rcases List.mem_cons.mp hw with rfl | hw
    · exact hsize
    · exact h.size w hw
  fresh := fun q hq => h.fresh q (Nat.le_of_succ_le hq)

/-- A query is started. -/
theorem start {w : WaitingQuery} (h : WaitingOk (w :: ws) count p) (i a : Nat) :
    WaitingOk ws count ⟨Function.update p.slot i ⟨a, .pending w.query 0⟩, p.log⟩ := by
  have hnodup := h.nodup
  rw [List.map_cons, List.nodup_cons] at hnodup
  constructor
  case nodup => exact hnodup.2
  case unused =>
    intro w' hw'
    refine (h.unused w' (by simp [hw'])).start (fun heq => hnodup.1 ?_)
    rw [heq]
    exact List.mem_map_of_mem hw'
  case lt => exact fun w' hw' => h.lt w' (by simp [hw'])
  case size => exact fun w' hw' => h.size w' (by simp [hw'])
  case fresh =>
    intro q hq
    refine (h.fresh q hq).start (Nat.ne_of_lt ?_)
    exact Nat.lt_of_lt_of_le (h.lt w (by simp)) hq

end WaitingOk

/-! ### The semaphore -/

/-- A wake-up grants as many units as there are waiters and units, oldest first. -/
theorem wakeUp_spec {α : Type} (n : Nat) (ws : List α) :
    (Semaphore.wakeUp n ws).1.count + (Semaphore.wakeUp n ws).2.length = n ∧
      (Semaphore.wakeUp n ws).2 ++ (Semaphore.wakeUp n ws).1.waitList = ws := by
  fun_induction Semaphore.wakeUp n ws with
  | case1 => simp
  | case2 => simp
  | case3 n w ws s woken heq ih =>
    rw [heq] at ih
    dsimp only at ih
    simp only [List.length_cons, List.cons_append, List.cons.injEq, true_and]
    exact ⟨by omega, ih.2⟩

/-- Giving a descriptor back resolves no waiting query. -/
theorem waitingQueries_recycle (c : MicaClient) (i : Nat) :
    waitingQueries (c.recycle i) = waitingQueries c := by
  have hwake := (wakeUp_spec (c.pendingWorkQueue.count + 1) c.pendingWorkQueue.waitList).2
  simp only [waitingQueries, MicaClient.recycle, Semaphore.signal, List.append_assoc]
  rw [hwake]

/-! ### Related logs -/

/-- Lists related element by element are related at each index. -/
theorem forall₂_getElem? {α β : Type} {R : α → β → Prop} {l : List α} {l' : List β}
    (h : List.Forall₂ R l l') {j : Nat} {x : α} (hx : l[j]? = some x) :
    ∃ y, l'[j]? = some y ∧ R x y := by
  induction h generalizing j with
  | nil => cases hx
  | cons hxy _ ih =>
    cases j with
    | zero =>
      cases hx
      exact ⟨_, rfl, hxy⟩
    | succ j => exact ih hx

/-- A list related to one that is cut at an element can be cut at the same place. -/
theorem forall₂_append_cons {α β : Type} {R : α → β → Prop} {l₁ l₂ : List α} {x : α}
    {l' : List β} (h : List.Forall₂ R (l₁ ++ x :: l₂) l') :
    ∃ l₁' y l₂', l' = l₁' ++ y :: l₂' ∧ List.Forall₂ R l₁ l₁' ∧ R x y := by
  induction l₁ generalizing l' with
  | nil =>
    cases h with
    | cons hxy _ => exact ⟨[], _, _, rfl, .nil, hxy⟩
  | cons z l₁ ih =>
    cases h with
    | cons hz hrest =>
      obtain ⟨l₁', y, l₂', rfl, hl₁, hxy⟩ := ih hrest
      exact ⟨_ :: l₁', y, l₂', rfl, .cons hz hl₁, hxy⟩

/-! ### The units of the semaphore -/

/-- The entries of `_recycled_rds` are the available units and the granted waiters, and `owed` more
in the middle of a call. -/
def UnitsOk (c : MicaClient) (owed : Nat) : Prop :=
  c.recycledRds.length = c.pendingWorkQueue.count + c.granted.length + owed

/-- Giving a descriptor back returns its unit. -/
theorem UnitsOk.recycle {c : MicaClient} (h : UnitsOk c 0) (i : Nat) : UnitsOk (c.recycle i) 0 := by
  have hwake := (wakeUp_spec (c.pendingWorkQueue.count + 1) c.pendingWorkQueue.waitList).1
  simp only [UnitsOk, MicaClient.recycle, Semaphore.signal, List.length_append,
    List.length_singleton] at h ⊢
  omega

/-! ### The relation to the pool -/

/-- The client and its network look like a pool that steps can reach. -/
structure NetOk (n : Network) (p : Pool (List UInt8)) : Prop where
  error : n.error = none
  client : ClientOk n.client p.slot none
  units : UnitsOk n.client 0
  waiting : WaitingOk (waitingQueries n.client) n.client.queryCount p
  ages : n.ages = agesOf p
  log : List.Forall₂ EventRel n.log p.log
  reach : Relation.ReflTransGen (Step RequestDescriptor.maxRetries) .create p

/-- A descriptor's epoch is the age of its slot. -/
theorem epochOf_eq {c : MicaClient} {p : Pool (List UInt8)} (h : ClientOk c p.slot none) (i : Nat) :
    Network.epochOf c i =
      if i < totalRequestDescriptorCount then BitVec.ofNat 16 (agesOf p i) else 0 := by
  rw [Network.epochOf]
  split
  case isTrue hi =>
    obtain ⟨d, hd⟩ := h.exists_rd hi
    rw [hd]
    exact (h.descriptor i d (Option.some_ne_none i) hd).epoch
  case isFalse hi =>
    rw [List.getElem?_eq_none (by rw [h.length]; exact Nat.not_lt.mp hi)]
    rfl

/-- The network `n₀` is `n` with a client that is ready for a call, and with the events `pre` in
addition. -/
structure Prepared (n n₀ : Network) (pre : List NetEvent) : Prop where
  error : n₀.error = n.error
  ages : n₀.ages = n.ages
  log : n₀.log = n.log ++ pre
  epochs : ∀ i, Network.epochOf n₀.client i = Network.epochOf n.client i
  effects : n₀.client.effects = n.client.effects

/-- Doing nothing prepares nothing. -/
theorem Prepared.refl (n : Network) : Prepared n n [] :=
  ⟨rfl, rfl, (List.append_nil _).symm, fun _ => rfl, rfl⟩

/-- The events of a call that turned the pool `p` into `p'`. -/
def EventsOk (p p' : Pool (List UInt8)) (c c' : MicaClient) (answers : Option Nat)
    (pre : List NetEvent) : Prop :=
  ∃ es evs, c'.effects = c.effects ++ es ∧ p'.log = p.log ++ evs ∧
    List.Forall₂ EventRel (pre ++ es.flatMap (Network.eventsOf (agesOf p') answers)) evs

/-- The ages after a call. A call increases an age by one at most. -/
def AgesOk (p p' : Pool (List UInt8)) : Prop :=
  ∀ i, agesOf p' i = agesOf p i ∨
    i < totalRequestDescriptorCount ∧ agesOf p' i = agesOf p i + 1

/-- A call of the client, simulated by the pool, keeps the invariant of the network. -/
theorem NetOk.advance {n n₀ : Network} {p p' : Pool (List UInt8)} (hn : NetOk n p)
    {pre : List NetEvent} (hn₀ : Prepared n n₀ pre) {c' : MicaClient} {answers : Option Nat}
    (hclient : ClientOk c' p'.slot none) (hunits : UnitsOk c' 0)
    (hwaiting : WaitingOk (waitingQueries c') c'.queryCount p')
    (hreach : Relation.ReflTransGen (Step RequestDescriptor.maxRetries) p p')
    (hages : AgesOk p p') (hevents : EventsOk p p' n.client c' answers pre) :
    NetOk (n₀.advance answers (.ok c')) p' := by
  obtain ⟨es, evs, hes, hevs, hrel⟩ := hevents
  have hages' : (fun i => n₀.ages i +
      (Network.epochOf c' i - Network.epochOf n₀.client i).toNat) = agesOf p' := by
    funext i
    rw [hn₀.ages, hn.ages, hn₀.epochs, epochOf_eq hclient, epochOf_eq hn.client]
    split
    case isTrue =>
      rw [epoch_sub_epoch ((hages i).imp_right And.right)]
      rcases hages i with heq | ⟨-, heq⟩ <;> omega
    case isFalse hi =>
      rcases hages i with heq | ⟨hlt, -⟩
      · simpa using heq.symm
      · exact (hi hlt).elim
  constructor
  case error => exact hn₀.error.trans hn.error
  case client => exact hclient
  case units => exact hunits
  case waiting => exact hwaiting
  case ages => exact hages'
  case log =>
    simp only [Network.advance]
    rw [hages', hn₀.log, hn₀.effects, hes, List.drop_left, hevs, List.append_assoc]
    exact List.rel_append hn.log hrel
  case reach => exact hn.reach.trans hreach

/-- Progress of the pool is a run of its steps. -/
theorem step_of_progress {p p' : Pool (List UInt8)} {limit : Nat}
    (h : Relation.ReflTransGen (Progress limit) p p') :
    Relation.ReflTransGen (Step limit) p p' :=
  h.lift id (fun _ _ hstep => .progress hstep)

/-- The events of a call that first did something to one slot, and then sent requests. -/
theorem Sends.eventsOk {p p₁ p' : Pool (List UInt8)} {c c₁ c' : MicaClient}
    (h : Sends p₁ p' c₁ c') (heffects : c₁.effects = c.effects) {pre : List NetEvent}
    {evs : List (Event (List UInt8))} (hlog : p₁.log = p.log ++ evs)
    (hpre : List.Forall₂ EventRel pre evs) (answers : Option Nat) :
    EventsOk p p' c c' answers pre := by
  obtain ⟨es, evs', hes, hevs', hrel⟩ := h.events
  refine ⟨es, evs ++ evs', by rw [hes, heffects], by rw [hevs', hlog, List.append_assoc], ?_⟩
  rw [h.ages]
  exact List.rel_append hpre (hrel answers)

/-- Only one slot gets older in a call. -/
theorem agesOk_update {p p' : Pool (List UInt8)} {i a : Nat} {s : Slot}
    (hi : i < totalRequestDescriptorCount) (hslot : (p.slot i).age = a)
    (hs : s.age = a ∨ s.age = a + 1) (h : agesOf p' = fun k => (Function.update p.slot i s k).age) :
    AgesOk p p' := by
  intro k
  rw [h]
  dsimp only
  by_cases hki : k = i
  · subst hki
    rw [Function.update_self, agesOf, hslot]
    exact hs.imp_right (fun heq => ⟨hi, heq⟩)
  · rw [Function.update_of_ne hki]
    exact .inl rfl

/-! ### The labels -/

section Labels

variable {n : Network} {p : Pool (List UInt8)} (hash : List UInt8 → BitVec 64)

/-- A query gets a descriptor. -/
theorem NetOk.startQuery (hn : NetOk n p) {c : MicaClient} {w : WaitingQuery}
    (hclient : ClientOk c p.slot none) (hunits : UnitsOk c 1)
    (hwaiting : WaitingOk (w :: waitingQueries c) c.queryCount p)
    (heffects : c.effects = n.client.effects) :
    ∃ p', NetOk (n.advance none (c.startQuery hash w)) p' := by
  have hsome : 0 < c.recycledRds.length := by
    rw [UnitsOk] at hunits
    omega
  obtain ⟨c', p', i, a, hcall, hi, hslot, hsends, hclient'⟩ :=
    startQuery_spec hash hclient hsome (hwaiting.size w (by simp))
  refine ⟨p', ?_⟩
  rw [hcall]
  refine hn.advance (.refl n) hclient' ?_ ?_ ?_ ?_ ?_
  · have htail : c.recycledRds.tail.length = c.recycledRds.length - 1 := List.length_tail
    have hrecycled : c'.recycledRds = c.recycledRds.tail := hsends.recycledRds
    have hqueue : c'.pendingWorkQueue = c.pendingWorkQueue := hsends.pendingWorkQueue
    have hgranted : c'.granted = c.granted := hsends.granted
    rw [UnitsOk] at hunits ⊢
    rw [hrecycled, hqueue, hgranted]
    omega
  · have hsame : waitingQueries c' = waitingQueries c := by
      rw [waitingQueries, hsends.granted, hsends.pendingWorkQueue]
      rfl
    have hcount : c'.queryCount = c.queryCount := hsends.queryCount
    rw [hsame, hcount]
    exact (hwaiting.start i a).progress hsends.reach
  · exact .head (.start hslot (hwaiting.unused w (by simp))) (step_of_progress hsends.reach)
  · exact agesOk_update hi (by rw [hslot]) (.inl rfl) hsends.ages
  · exact hsends.eventsOk heffects (List.append_nil _).symm .nil none

/-- A query keeps the invariant. -/
theorem NetOk.query (hn : NetOk n p) {request : Request}
    (hsize : Network.requestSize request ≤ maxReqLen) :
    ∃ p', NetOk (n.advance none (n.client.query hash request)) p' := by
  have hwaiting := hn.waiting.push hsize
  unfold MicaClient.query
  dsimp only
  split
  case isTrue hproceed =>
    have hcount : 0 < n.client.pendingWorkQueue.count := by
      simp only [Semaphore.mayProceed, Bool.and_eq_true, decide_eq_true_eq] at hproceed
      exact hproceed.1
    refine hn.startQuery hash (hn.client.congr rfl rfl rfl rfl) ?_ hwaiting rfl
    have hunits := hn.units
    simp only [UnitsOk] at hunits ⊢
    omega
  case isFalse =>
    refine ⟨p, hn.advance (.refl n) (hn.client.congr rfl rfl rfl rfl) hn.units ?_ .refl
      (fun _ => .inl rfl) ((Sends.refl p n.client).eventsOk rfl (List.append_nil _).symm .nil none)⟩
    refine hwaiting.perm ?_
    simp only [waitingQueries, ← List.append_assoc]
    exact (List.perm_append_singleton ..).symm

/-- A granted query that runs keeps the invariant. -/
theorem NetOk.runGranted (hn : NetOk n p) {k : Nat} (hk : k < n.client.granted.length) :
    ∃ p', NetOk (n.advance none (n.client.runGranted hash k)) p' := by
  have hw : n.client.granted[k]? = some n.client.granted[k] := List.getElem?_eq_getElem hk
  rw [MicaClient.runGranted, hw]
  refine hn.startQuery hash (hn.client.congr rfl rfl rfl rfl) ?_ ?_ rfl
  · have hunits := hn.units
    simp only [UnitsOk, List.length_eraseIdx_of_lt hk] at hunits ⊢
    omega
  · refine hn.waiting.perm ?_
    exact ((List.getElem_cons_eraseIdx_perm hk).append_right _).symm

/-- The client's timer keeps the invariant. -/
theorem NetOk.tick (hn : NetOk n p) : ∃ p', NetOk (n.advance none (n.client.checkRas 5)) p' := by
  obtain ⟨c', p', hcall, hsends, hclient⟩ := checkRas_spec 5 hn.client
  refine ⟨p', ?_⟩
  rw [hcall]
  refine hn.advance (.refl n) hclient ?_ ?_ (step_of_progress hsends.reach) ?_ ?_
  · rw [UnitsOk, hsends.recycledRds, hsends.pendingWorkQueue, hsends.granted]
    exact hn.units
  · rw [waitingQueries, hsends.granted, hsends.pendingWorkQueue, hsends.queryCount]
    exact hn.waiting.progress hsends.reach
  · exact fun i => .inl (congrFun hsends.ages i)
  · exact hsends.eventsOk rfl (List.append_nil _).symm .nil none

/-- A query is resolved and its descriptor is recycled. -/
theorem NetOk.recycle (hn : NetOk n p) {n₀ : Network} {pre : List NetEvent}
    (hn₀ : Prepared n n₀ pre) {i a q : Nat} {c' : MicaClient} {outcome : Outcome}
    (hrecycles : Recycles i n.client c' q outcome) (hi : i < totalRequestDescriptorCount)
    (hage : (p.slot i).age = a) {evs : List (Event (List UInt8))}
    (hclient : ClientOk c' (Function.update p.slot i ⟨a + 1, .free⟩) none)
    (hreach : Relation.ReflTransGen (Progress RequestDescriptor.maxRetries) p
      ⟨Function.update p.slot i ⟨a + 1, .free⟩, p.log ++ evs⟩) {answers : Option Nat}
    (hevs : List.Forall₂ EventRel (pre ++ [.resolve q outcome answers]) evs) :
    NetOk (n₀.advance answers (.ok c'))
      ⟨Function.update p.slot i ⟨a + 1, .free⟩, p.log ++ evs⟩ := by
  refine hn.advance hn₀ hclient ?_ ?_ (step_of_progress hreach) ?_ ?_
  · rw [UnitsOk, hrecycles.recycledRds, hrecycles.pendingWorkQueue, hrecycles.granted]
    exact hn.units.recycle i
  · have hsame : waitingQueries c' = waitingQueries n.client := by
      rw [waitingQueries, hrecycles.granted, hrecycles.pendingWorkQueue]
      exact waitingQueries_recycle n.client i
    rw [hsame, hrecycles.queryCount]
    exact hn.waiting.progress hreach
  · exact agesOk_update hi hage (.inr rfl) rfl
  · exact ⟨[.resolve q outcome], evs, hrecycles.effects, rfl, hevs⟩

/-- A timer that expires is noted in the log. -/
theorem prepared_expire (n : Network) {i : Nat} {d : RequestDescriptor Nat}
    (hd : n.client.rds[i]? = some d) : Prepared n (n.expire i d) [.timeout i d.pr] where
  error := rfl
  ages := rfl
  log := rfl
  epochs := by
    intro k
    rw [Network.epochOf, Network.epochOf, Network.expire, MicaClient.setRd]
    dsimp only
    by_cases hki : i = k
    · subst hki
      rw [List.getElem?_set_self (List.getElem?_eq_some_iff.mp hd).1, hd]
      rfl
    · rw [List.getElem?_set_ne hki]
  effects := rfl

/-- After the last timeout the query is given up. -/
theorem gaveUp_of_last {p : Pool (List UInt8)} {limit i a q r : Nat}
    (hslot : p.slot i = ⟨a, .inFlight q r⟩) (hlast : r + 1 = limit) :
    Relation.ReflTransGen (Progress limit) p
      ⟨Function.update p.slot i ⟨a + 1, .free⟩, p.log ++ [.timeout q, .resolve q .gaveUp]⟩ := by
  have htimeout : Progress limit p
      ⟨Function.update p.slot i ⟨a + 1, .pending q (r + 1)⟩, p.log ++ [.timeout q]⟩ :=
    .timeout hslot
  rw [hlast] at htimeout
  have hgiveUp : Progress limit
      ⟨Function.update p.slot i ⟨a + 1, .pending q limit⟩, p.log ++ [.timeout q]⟩
      ⟨Function.update (Function.update p.slot i ⟨a + 1, .pending q limit⟩) i ⟨a + 1, .free⟩,
        p.log ++ [.timeout q] ++ [.resolve q .gaveUp]⟩ :=
    .giveUp (Function.update_self ..)
  rw [Function.update_idem, List.append_assoc] at hgiveUp
  exact .head htimeout (.single hgiveUp)

/-- A timeout keeps the invariant. -/
theorem NetOk.timeout (hn : NetOk n p) {i : Nat} {d : RequestDescriptor Nat}
    (hd : n.client.rds[i]? = some d) (harmed : d.toArmed = true) :
    ∃ p', NetOk ((n.expire i d).advance none
      ((n.expire i d).client.checkRequestDescriptorTimeout i)) p' := by
  have hi : i < totalRequestDescriptorCount :=
    hn.client.length ▸ (List.getElem?_eq_some_iff.mp hd).1
  obtain ⟨a, q, r, c', hslot, hpr, hcall, hrest⟩ :=
    checkRequestDescriptorTimeout_spec hn.client hd harmed
  have hprepared := prepared_expire n hd
  rw [hpr] at hprepared
  have htimeout : Progress RequestDescriptor.maxRetries p
      ⟨Function.update p.slot i ⟨a + 1, .pending q (r + 1)⟩, p.log ++ [.timeout q]⟩ :=
    .timeout hslot
  have hexpired : (n.expire i d).client.checkRequestDescriptorTimeout i = .ok c' := hcall
  rw [hexpired]
  rcases hrest with ⟨hlast, hrecycles, hclient⟩ | ⟨p', hsends, hclient⟩
  · have hgiveUp := gaveUp_of_last hslot hlast
    exact ⟨_, hn.recycle hprepared hrecycles hi (by rw [hslot]) hclient hgiveUp
      (.cons (.timeout i q) (.cons (.killFlow q) .nil))⟩
  · refine ⟨p', hn.advance hprepared hclient ?_ ?_ ?_ ?_ ?_⟩
    · rw [UnitsOk, hsends.recycledRds, hsends.pendingWorkQueue, hsends.granted]
      exact hn.units
    · rw [waitingQueries, hsends.granted, hsends.pendingWorkQueue, hsends.queryCount]
      exact hn.waiting.progress (.head htimeout hsends.reach)
    · exact step_of_progress (.head htimeout hsends.reach)
    · exact agesOk_update hi (by rw [hslot]) (.inr rfl) hsends.ages
    · exact hsends.eventsOk rfl rfl (.cons (.timeout i q) .nil) none

/-- A record reaches the client. -/
theorem NetOk.deliver (hn : NetOk n p) {rec : ResponseRecord} {j : Nat} {n' : Network}
    (h : n.deliver (rec, j) = some n') : ∃ p', NetOk n' p' := by
  simp only [Network.deliver, hn.error, Option.isSome_none, Bool.false_eq_true, if_false] at h
  split at h
  case h_2 => cases h
  case h_1 request age hj =>
    split at h
    case isFalse => cases h
    case isTrue hecho =>
      cases h
      obtain ⟨e, he, hrel⟩ := forall₂_getElem? hn.log hj
      cases hrel with
      | @transmit _ _ q hquery hi hid =>
        have hfresh : agesOf p request.rdIdx < age + 2 ^ 16 := hn.ages ▸ hecho.2
        rcases receiveRecord_spec hn.client (inv_of_reachable hn.reach) he hi
          (hecho.1.trans hid) hfresh with hignored | ⟨r, c', hslot, hcall, hrecycles, hclient⟩
        · refine ⟨p, ?_⟩
          rw [hignored]
          exact hn.advance (.refl n) hn.client hn.units hn.waiting .refl (fun _ => .inl rfl)
            ((Sends.refl p n.client).eventsOk rfl (List.append_nil _).symm .nil _)
        · rw [hcall]
          exact ⟨_, hn.recycle (.refl n) hrecycles hi (by rw [hslot]) hclient
            (.single (.answer rec.pkt hslot he)) (.cons (.value q j rec.pkt) .nil)⟩

/-- Responses that arrive keep the invariant. -/
theorem NetOk.receive {responses : List (ResponseRecord × Nat)} {n n' : Network}
    {p : Pool (List UInt8)} (hn : NetOk n p) (h : responses.foldlM Network.deliver n = some n') :
    ∃ p', NetOk n' p' := by
  induction responses generalizing n p with
  | nil =>
    cases h
    exact ⟨p, hn⟩
  | cons response responses ih =>
    rw [List.foldlM_cons] at h
    obtain ⟨n₁, h₁, hrest⟩ := Option.bind_eq_some_iff.mp h
    obtain ⟨p₁, hn₁⟩ := hn.deliver h₁
    exact ih hn₁ hrest

/-- Every label keeps the relation to some pool. -/
theorem NetOk.step (hn : NetOk n p) {l : Network.Label} {n' : Network}
    (h : n.step hash l = some n') : ∃ p', NetOk n' p' := by
  simp only [Network.step, hn.error, Option.isSome_none, Bool.false_eq_true, if_false] at h
  cases l with
  | query request =>
    dsimp only at h
    split at h
    case isFalse => cases h
    case isTrue hsize =>
      cases h
      exact hn.query hash hsize
  | runGranted k =>
    dsimp only at h
    split at h
    case isFalse => cases h
    case isTrue hk =>
      cases h
      exact hn.runGranted hash hk
  | tick =>
    cases h
    exact hn.tick
  | timeout i =>
    dsimp only at h
    split at h
    case h_1 => cases h
    case h_2 d hd =>
      split at h
      case isFalse => cases h
      case isTrue harmed =>
        cases h
        exact hn.timeout hd harmed
  | receive pkt answers =>
    dsimp only at h
    split at h
    case h_1 => cases h
    case h_2 records _ _ =>
      split at h
      case isFalse => cases h
      case isTrue => exact hn.receive h

end Labels

/-- A client just booted up is the empty pool. -/
theorem clientOk_bootup {smpCount : Nat} (hsmp : 0 < smpCount) (rqHd : Nat → RequestHeader) :
    ClientOk (.bootup smpCount rqHd) (Pool.create : Pool (List UInt8)).slot none where
  length := by simp [MicaClient.bootup]
  whichRa := by simpa [MicaClient.bootup] using hsmp
  streams := by
    intro ra hra
    rw [List.eq_of_mem_replicate hra]
    rfl
  descriptor := by
    intro i d _ hd
    simp only [MicaClient.bootup, List.getElem?_map, Option.map_eq_some_iff] at hd
    obtain ⟨k, hk, rfl⟩ := hd
    obtain ⟨hi, hki⟩ := List.getElem?_eq_some_iff.mp hk
    rw [List.getElem_range] at hki
    subst hki
    exact ⟨rfl, rfl, rfl, rfl, rfl⟩
  recycled := by
    intro i
    have hrange : (MicaClient.bootup smpCount rqHd).recycledRds =
        List.range totalRequestDescriptorCount := by
      simp only [MicaClient.bootup]
    rw [hrange, placeIn]
    by_cases hi : i < totalRequestDescriptorCount
    · rw [if_pos ⟨hi, Option.some_ne_none i⟩]
      rw [List.count_eq_one_of_mem List.nodup_range (List.mem_range.mpr hi)]
      rfl
    · rw [if_neg (fun h => hi h.1), List.count_eq_zero.mpr (fun h => hi (List.mem_range.mp h))]
  pending := by
    intro i
    have hnone : (pendingIdxs (MicaClient.bootup smpCount rqHd).ras).count i = 0 := by
      refine List.count_eq_zero.mpr (fun hmem => ?_)
      obtain ⟨ra, hra, hi⟩ := List.mem_flatMap.mp hmem
      rw [List.eq_of_mem_replicate hra] at hi
      cases hi
    rw [hnone, placeIn]
    split <;> rfl

/-- A new network meets the invariant. -/
theorem netOk_create {smpCount : Nat} (hsmp : 0 < smpCount) (rqHd : Nat → RequestHeader) :
    NetOk (.create smpCount rqHd) .create where
  error := rfl
  client := clientOk_bootup hsmp rqHd
  units := by simp [UnitsOk, Network.create, MicaClient.bootup]
  waiting := by
    refine ⟨.nil, nofun, nofun, nofun, fun q _ => ⟨nofun, ?_⟩⟩
    intro i r
    exact nofun
  ages := rfl
  log := .nil
  reach := .refl

/-- In every run the client looks like a pool that steps can reach. -/
theorem exists_netOk (hash : List UInt8 → BitVec 64) {smpCount : Nat} (hsmp : 0 < smpCount)
    (rqHd : Nat → RequestHeader) {ls : List Network.Label} {n : Network}
    (h : run (Network.step hash) (.create smpCount rqHd) ls = some n) : ∃ p, NetOk n p :=
  run_invariant (fun n => ∃ p, NetOk n p)
    (fun _ _ _ _ ⟨_, hn⟩ hstep => hn.step hash hstep) ⟨_, netOk_create hsmp rqHd⟩ h

end Netstar.Proofs.Mica
