import Mathlib.Data.List.Forall2
import Netstar.Proofs.Mica.ClientPool
import Netstar.Spec.Mica.Network

/-!
# `Netstar.Proofs.Mica.MicaClient`: the calls of a client as steps of the pool

Each call of the client succeeds, and the pool of slots makes some steps with it. `EventRel` relates
the events of the network to the events of the pool. `Sends` is a call that does nothing but send
requests that were pending.
-/

set_option autoImplicit false

namespace Netstar.Proofs.Mica

open Netstar.Lib (ok_bind)
open Netstar.Lib.SlotPool
open Netstar.Spec.Mica
open Netstar.Spec.Mica.MicaClient

/-- An event of the network and the event of the pool that it stands for. -/
inductive EventRel : NetEvent → Event (List UInt8) → Prop
  | transmit {request : SentRequest} {age q : Nat} (hquery : request.query = some q)
      (hi : request.rdIdx < totalRequestDescriptorCount)
      (hid : request.rqHd.opaqueId = opaqueOf request.rdIdx age) :
    EventRel (.transmit request age) (.transmit request.rdIdx age q)
  | timeout (i q : Nat) : EventRel (.timeout i (some q)) (.timeout q)
  | value (q j : Nat) (response : List UInt8) :
    EventRel (.resolve q (.value response) (some j)) (.resolve q (.answered j response))
  | killFlow (q : Nat) : EventRel (.resolve q .killFlow none) (.resolve q .gaveUp)

/-- The ages of the slots. -/
def agesOf (p : Pool (List UInt8)) (i : Nat) : Nat := (p.slot i).age

/-- The call sends requests that were pending, and leaves the queues of the client alone. -/
structure Sends (p p' : Pool (List UInt8)) (c c' : MicaClient) : Prop where
  reach : Relation.ReflTransGen (Progress RequestDescriptor.maxRetries) p p'
  ages : agesOf p' = agesOf p
  events : ∃ es evs, c'.effects = c.effects ++ es ∧ p'.log = p.log ++ evs ∧
    ∀ answers, List.Forall₂ EventRel (es.flatMap (Network.eventsOf (agesOf p) answers)) evs
  granted : c'.granted = c.granted
  pendingWorkQueue : c'.pendingWorkQueue = c.pendingWorkQueue
  recycledRds : c'.recycledRds = c.recycledRds
  queryCount : c'.queryCount = c.queryCount

/-- Sending nothing changes nothing. -/
theorem Sends.refl (p : Pool (List UInt8)) (c : MicaClient) : Sends p p c c where
  reach := .refl
  ages := rfl
  events := ⟨[], [], by simp, by simp, fun _ => .nil⟩
  granted := rfl
  pendingWorkQueue := rfl
  recycledRds := rfl
  queryCount := rfl

/-- Sending twice is sending. -/
theorem Sends.trans {p p' p'' : Pool (List UInt8)} {c c' c'' : MicaClient} (h : Sends p p' c c')
    (h' : Sends p' p'' c' c'') : Sends p p'' c c'' where
  reach := h.reach.trans h'.reach
  ages := h'.ages.trans h.ages
  events := by
    obtain ⟨es, evs, hes, hevs, hrel⟩ := h.events
    obtain ⟨es', evs', hes', hevs', hrel'⟩ := h'.events
    refine ⟨es ++ es', evs ++ evs', ?_, ?_, fun answers => ?_⟩
    · rw [hes', hes, List.append_assoc]
    · rw [hevs', hevs, List.append_assoc]
    · rw [List.flatMap_append]
      rw [h.ages] at hrel'
      exact List.rel_append (hrel answers) (hrel' answers)
  granted := h'.granted.trans h.granted
  pendingWorkQueue := h'.pendingWorkQueue.trans h.pendingWorkQueue
  recycledRds := h'.recycledRds.trans h.recycledRds
  queryCount := h'.queryCount.trans h.queryCount

section Flush

variable {c : MicaClient} {p : Pool (List UInt8)} {limbo : Option Nat} {a : Nat}
  {ra : RequestAssembler} {sent kept : List Nat}

/-- The requests in a packet are the transmissions of the slots. -/
theorem eventRel_sentRequests (h : ClientOk c p.slot limbo) (hra : c.ras[a]? = some ra)
    (hsent : ∀ i ∈ sent, i ∈ ra.rdIdxs) (answers : Option Nat) :
    List.Forall₂ EventRel
      (Network.eventsOf (agesOf p) answers (.sendPacket (sentRequests c.rds sent)))
      (sent.map p.transmission) := by
  induction sent with
  | nil => exact .nil
  | cons i sent ih =>
    obtain ⟨-, d, q, r, hd, hok, hslot⟩ := h.rdIdxs_pending hra (hsent i (by simp))
    have hrest := ih (fun k hk => hsent k (by simp [hk]))
    have hserves := hok.phase
    rw [hslot] at hserves
    have htransmission : p.transmission i = .transmit i (agesOf p i) q := by
      rw [Pool.transmission, hslot]
      rfl
    have hi : i < totalRequestDescriptorCount :=
      (h.pending_of_mem (ClientOk.mem_pendingIdxs hra (hsent i (by simp)))).2.1
    rw [sentRequests, List.filterMap_cons, hd, List.map_cons, htransmission]
    refine .cons ?_ hrest
    exact @EventRel.transmit (sentRequest i d) _ q hserves.1.pr hi hserves.1.opaqueId

/-- A call of an assembler that sends some descriptors. -/
theorem sends_flush (h : ClientOk c p.slot limbo) (hra : c.ras[a]? = some ra)
    (hsplit : ra.rdIdxs = sent ++ kept) {es : List ClientEffect}
    (hes : sent = [] ∧ es = [] ∨ es = [.sendPacket (sentRequests c.rds sent)])
    (ras : List RequestAssembler) (rds : Rds) :
    Sends p (p.transmitAll sent) c
      { c with ras := ras, rds := rds, effects := c.effects ++ es } where
  reach := by
    have hnodup := h.nodup_rdIdxs hra
    rw [hsplit] at hnodup
    refine progress_transmitAll _ p (List.nodup_append.mp hnodup).1 (fun i hi => ?_)
    have hmem : i ∈ ra.rdIdxs := by
      rw [hsplit]
      exact List.mem_append_left _ hi
    obtain ⟨-, d, q, r, -, -, hslot⟩ := h.rdIdxs_pending hra hmem
    exact ⟨_, q, r, hslot⟩
  ages := by
    funext i
    rw [agesOf, agesOf]
    by_cases hi : i ∈ sent
    · obtain ⟨-, -, q, r, -, hslot⟩ := h.phase_transmitAll hra hsplit hi
      rw [hslot]
    · have hsame : (p.transmitAll sent).slot i = p.slot i := if_neg hi
      rw [hsame]
  events := by
    refine ⟨es, sent.map p.transmission, rfl, rfl, fun answers => ?_⟩
    rcases hes with ⟨rfl, rfl⟩ | rfl
    · exact .nil
    · rw [List.flatMap_singleton]
      refine eventRel_sentRequests h hra (fun i hi => ?_) answers
      rw [hsplit]
      exact List.mem_append_left _ hi
  granted := rfl
  pendingWorkQueue := rfl
  recycledRds := rfl
  queryCount := rfl

end Flush

/-! ### Calls of the assemblers -/

section Calls

variable {c : MicaClient} {p : Pool (List UInt8)}

/-- Calling an assembler's method writes the assembler, the descriptors and the packets back. -/
theorem callRa_eq_ok {a : Nat} {ra ra' : RequestAssembler} (hra : c.ras[a]? = some ra)
    {f : RequestAssembler → Rds → Except MicaError (RequestAssembler × Rds × List ClientEffect)}
    {rds : Rds} {es : List ClientEffect} (hf : f ra c.rds = .ok (ra', rds, es)) :
    c.callRa a f =
      .ok { c with ras := c.ras.set a ra', rds := rds, effects := c.effects ++ es } := by
  simp only [callRa, hra, hf]
  rfl

/-- Checking an assembler sends requests and keeps the client's invariant. -/
theorem checkRequestAssemblers_spec (h : ClientOk c p.slot none) {a : Nat}
    (ha : a < c.ras.length) :
    ∃ c' p', c.checkRequestAssemblers a = .ok c' ∧ Sends p p' c c' ∧ ClientOk c' p'.slot none := by
  obtain ⟨ra, hra⟩ : ∃ ra, c.ras[a]? = some ra := ⟨_, List.getElem?_eq_getElem ha⟩
  obtain ⟨sent, kept, size, es, hsplit, hcheck, hes⟩ :=
    assemblerStep_check (h.streams ra (List.mem_of_getElem? hra)) (h.nodup_rdIdxs hra)
      (h.unarmed_rdIdxs hra)
  rw [List.append_nil] at hcheck
  exact ⟨_, _, callRa_eq_ok hra hcheck, sends_flush h hra hsplit hes _ _,
    h.flush hra hsplit size _⟩

/-- The callback of the assembler timer sends what is pending. -/
theorem checkRas_spec (rounds : Nat) {c : MicaClient} {p : Pool (List UInt8)}
    (h : ClientOk c p.slot none) :
    ∃ c' p', c.checkRas rounds = .ok c' ∧ Sends p p' c c' ∧ ClientOk c' p'.slot none := by
  induction rounds generalizing c p with
  | zero => exact ⟨c, p, rfl, .refl p c, h⟩
  | succ rounds ih =>
    obtain ⟨c₁, p₁, hcheck, hsends, h₁⟩ := checkRequestAssemblers_spec h h.whichRa
    have hnext : ClientOk { c₁ with whichRa := (c₁.whichRa + 1) % c₁.ras.length } p₁.slot none :=
      ⟨h₁.length, Nat.mod_lt _ h₁.smpCount_pos, h₁.streams, h₁.descriptor, h₁.recycled, h₁.pending⟩
    obtain ⟨c₂, p₂, hrest, hsends', h₂⟩ := ih hnext
    have hsame : Sends p₁ p₁ c₁ { c₁ with whichRa := (c₁.whichRa + 1) % c₁.ras.length } :=
      { Sends.refl p₁ c₁ with }
    refine ⟨c₂, p₂, ?_, (hsends.trans hsame).trans hsends', h₂⟩
    rw [checkRas, hcheck, ok_bind]
    exact hrest

/-- The partition of a hash is one of the partitions. -/
theorem calcPartitionId_lt (keyHash : BitVec 64) {n : Nat} (hn : 0 < n) :
    calcPartitionId keyHash n < n :=
  Nat.lt_of_le_of_lt (Nat.mod_le _ _) (Nat.mod_lt _ hn)

/-- `send_request_descriptor` of a descriptor in limbo sends some other descriptors, perhaps, and
puts this one into an assembler. -/
theorem sendRequestDescriptor_spec {i : Nat} (h : ClientOk c p.slot (some i))
    (hi : i < totalRequestDescriptorCount) {d : RequestDescriptor Nat} (hd : c.rds[i]? = some d)
    (hsize : d.requestSize ≤ maxReqLen) :
    ∃ c' p', c.sendRequestDescriptor i = .ok c' ∧ Sends p p' c c' ∧ p'.slot i = p.slot i ∧
      c'.rds[i]? = some d ∧
      ∀ q r d', (p.slot i).phase = .pending q r → DescriptorOk i d' (p.slot i) →
        ClientOk (c'.setRd i d') p'.slot none := by
  have ha := calcPartitionId_lt d.rqHd.keyHash h.smpCount_pos
  obtain ⟨ra, hra⟩ : ∃ ra, c.ras[calcPartitionId d.rqHd.keyHash c.ras.length]? = some ra :=
    ⟨_, List.getElem?_eq_getElem ha⟩
  obtain ⟨sent, kept, size, es, hsplit, happend, hes⟩ :=
    assemblerStep_appendNewRequestDescriptor (h.streams ra (List.mem_of_getElem? hra))
      (h.nodup_rdIdxs hra) (h.unarmed_rdIdxs hra) hd hsize
  have hnew : i ∉ sent := by
    intro hmem
    obtain ⟨-, hlimbo, -⟩ := h.phase_transmitAll hra hsplit hmem
    exact hlimbo rfl
  have hslot : (p.transmitAll sent).slot i = p.slot i := if_neg hnew
  have hcall := callRa_eq_ok hra happend
  rw [← ok_bind d (fun d => c.callRa (calcPartitionId d.rqHd.keyHash c.ras.length) _),
    ← getRd_eq_ok hd] at hcall
  refine ⟨_, p.transmitAll sent, hcall, sends_flush h hra hsplit hes _ _, hslot, ?_, ?_⟩
  · rw [getElem?_armAll, hd, Option.map_some, if_neg hnew]
  · intro q r d' hphase hd'
    have hflushed := h.flush hra hsplit 0 (c.effects ++ es)
    have hra' : (c.ras.set (calcPartitionId d.rqHd.keyHash c.ras.length) ⟨0, kept, []⟩)[
        calcPartitionId d.rqHd.keyHash c.ras.length]? = some ⟨0, kept, []⟩ :=
      List.getElem?_set_self ha
    rw [← hslot] at hphase hd'
    have hplaced := hflushed.append hi hra' size hphase hd'
    exact hplaced.congr rfl (List.set_set ..).symm rfl rfl

/-! ### Queries -/

/-- A free descriptor after `new_action` and `obtain_future`. -/
theorem descriptorOk_newAction (hash : List UInt8 → BitVec 64) {i a : Nat}
    {d : RequestDescriptor Nat} (hd : DescriptorOk i d ⟨a, .free⟩) {w : WaitingQuery}
    (hsize : Network.requestSize w.request ≤ maxReqLen) :
    DescriptorOk i ((d.newAction hash w.request).obtainFuture w.query)
      ⟨a, .pending w.query 0⟩ where
  rdIndex := hd.rdIndex
  epoch := hd.epoch
  phase := by
    refine ⟨⟨rfl, hd.phase.2.1, ?_, hsize⟩, hd.phase.2.2⟩
    exact hd.currentOpaque

/-- The common code of a query takes the first recycled descriptor. -/
theorem startQuery_spec (hash : List UInt8 → BitVec 64) (h : ClientOk c p.slot none)
    (hsome : 0 < c.recycledRds.length) {w : WaitingQuery}
    (hsize : Network.requestSize w.request ≤ maxReqLen) :
    ∃ c' p' i a, c.startQuery hash w = .ok c' ∧ i < totalRequestDescriptorCount ∧
      p.slot i = ⟨a, .free⟩ ∧
      Sends ⟨Function.update p.slot i ⟨a, .pending w.query 0⟩, p.log⟩ p'
        { c with recycledRds := c.recycledRds.tail } c' ∧
      ClientOk c' p'.slot none := by
  obtain ⟨i, rest, hrecycled⟩ := List.exists_cons_of_length_pos hsome
  obtain ⟨hi, hphase⟩ := h.free_of_recycled hrecycled
  obtain ⟨d, hd⟩ := h.exists_rd hi
  have hok := h.descriptor i d (Option.some_ne_none i) hd
  have hslot : p.slot i = ⟨(p.slot i).age, .free⟩ := by rw [← hphase]
  rw [hslot] at hok
  have hlimbo := (h.pop hrecycled).setLimbo (d.newAction hash w.request)
    ⟨(p.slot i).age, .pending w.query 0⟩
  have hd₁ : (c.rds.set i (d.newAction hash w.request))[i]? =
      some (d.newAction hash w.request) :=
    List.getElem?_set_self (List.getElem?_eq_some_iff.mp hd).1
  obtain ⟨c₂, p₂, hcall, hsends, hsame, hd₂, hdone⟩ :=
    sendRequestDescriptor_spec
      (p := ⟨Function.update p.slot i ⟨(p.slot i).age, .pending w.query 0⟩, p.log⟩)
      hlimbo hi hd₁ hsize
  simp only [Function.update_self] at hdone
  refine ⟨_, p₂, i, (p.slot i).age, ?_, hi, hslot, ?_,
    hdone w.query 0 ((d.newAction hash w.request).obtainFuture w.query) rfl
      (descriptorOk_newAction hash hok hsize)⟩
  · rw [startQuery, hrecycled]
    dsimp only
    rw [getRd_eq_ok hd, ok_bind, hcall, ok_bind, getRd_eq_ok hd₂, ok_bind]
    rfl
  · rw [hrecycled, List.tail_cons]
    exact ⟨hsends.reach, hsends.ages, hsends.events, hsends.granted, hsends.pendingWorkQueue,
      hsends.recycledRds, hsends.queryCount⟩

/-! ### Timeouts and responses -/

/-- An armed descriptor serves a query in flight. -/
theorem DescriptorOk.inFlight {i : Nat} {d : RequestDescriptor Nat} {s : Slot}
    (hd : DescriptorOk i d s) (harmed : d.toArmed = true) :
    ∃ q r, s = ⟨s.age, .inFlight q r⟩ ∧ Serves i d s.age q r := by
  obtain ⟨age, phase⟩ := s
  have hphase := hd.phase
  cases phase with
  | free => exact absurd (harmed.symm.trans hphase.2.2) nofun
  | pending q r => exact absurd (harmed.symm.trans hphase.2) nofun
  | inFlight q r => exact ⟨q, r, rfl, hphase.1⟩

/-- The call resolves the query `q`, and descriptor `i` goes back to `_recycled_rds`. -/
structure Recycles (i : Nat) (c c' : MicaClient) (q : Nat) (outcome : Outcome) : Prop where
  effects : c'.effects = c.effects ++ [.resolve q outcome]
  recycledRds : c'.recycledRds = (c.recycle i).recycledRds
  pendingWorkQueue : c'.pendingWorkQueue = (c.recycle i).pendingWorkQueue
  granted : c'.granted = (c.recycle i).granted
  queryCount : c'.queryCount = c.queryCount

/-- A descriptor in flight is freed, and its query is resolved. -/
theorem recycle_spec (h : ClientOk c p.slot none) {i a q r : Nat}
    (hi : i < totalRequestDescriptorCount) (hslot : p.slot i = ⟨a, .inFlight q r⟩)
    {d : RequestDescriptor Nat} (hd : DescriptorOk i d ⟨a + 1, .free⟩) (outcome : Outcome)
    {c₀ : MicaClient} (hc₀ : ∃ d₀, c₀ = c.setRd i d₀) :
    Recycles i c ((c₀.afterHandler i d (some (q, outcome))).recycle i) q outcome ∧
      ClientOk ((c₀.afterHandler i d (some (q, outcome))).recycle i)
        (Function.update p.slot i ⟨a + 1, .free⟩) none := by
  obtain ⟨d₀, rfl⟩ := hc₀
  have hphase : (p.slot i).phase = .inFlight q r := by rw [hslot]
  have hlimbo := (h.take hi hphase).setLimbo d ⟨a + 1, .free⟩
  have hhandled : ClientOk ((c.setRd i d₀).afterHandler i d (some (q, outcome)))
      (Function.update p.slot i ⟨a + 1, .free⟩) (some i) :=
    hlimbo.congr (List.set_set ..) rfl rfl rfl
  refine ⟨⟨rfl, rfl, rfl, rfl, rfl⟩, hhandled.recycle hi (by rw [Function.update_self]) ?_⟩
  intro d' hd'
  have hlt : i < (c.rds.set i d₀).length := by
    rw [List.length_set, h.length]
    exact hi
  have hset : ((c.rds.set i d₀).set i d)[i]? = some d := List.getElem?_set_self hlt
  rw [Function.update_self]
  cases hset.symm.trans hd'
  exact hd

/-- The 16-bit epoch goes up with the age. -/
theorem epoch_succ (a : Nat) : BitVec.ofNat 16 a + 1 = BitVec.ofNat 16 (a + 1) :=
  (BitVec.ofNat_add a 1).symm

/-- The last timeout frees the descriptor. -/
theorem timeoutHandler_last {i a q r : Nat} {d : RequestDescriptor Nat}
    (hd : DescriptorOk i d ⟨a, .inFlight q r⟩) (hlast : r + 1 = RequestDescriptor.maxRetries) :
    ∃ d', { d with toArmed := false }.timeoutHandler = .ok (.recycleRd, d', some (q, .killFlow)) ∧
      DescriptorOk i d' ⟨a + 1, .free⟩ := by
  have hserves := hd.phase.1
  refine ⟨{ d with toArmed := false, retryCount := d.retryCount + 1 }.timeoutRecyclePrep, ?_,
    ⟨hd.rdIndex, ?_, rfl, rfl, rfl⟩⟩
  · simp only [RequestDescriptor.timeoutHandler, hserves.retryCount, hlast, hserves.pr]
    rfl
  · rw [← epoch_succ, ← hd.epoch]
    rfl

/-- Any other timeout prepares the next transmission. -/
theorem timeoutHandler_resend {i a q r : Nat} {d : RequestDescriptor Nat}
    (hd : DescriptorOk i d ⟨a, .inFlight q r⟩) (hlast : r + 1 ≠ RequestDescriptor.maxRetries) :
    ∃ d', { d with toArmed := false }.timeoutHandler = .ok (.resendRd, d', none) ∧
      DescriptorOk i d' ⟨a + 1, .pending q (r + 1)⟩ := by
  have hserves := hd.phase.1
  have hepoch : d.epoch + 1 = BitVec.ofNat 16 (a + 1) := by
    rw [← epoch_succ, ← hd.epoch]
  refine ⟨{ d with
    toArmed := false, retryCount := d.retryCount + 1, epoch := d.epoch + 1
    }.adjustRequestHeaderOpaque, ?_,
    ⟨hd.rdIndex, hepoch, ⟨hserves.pr, ?_, ?_, hserves.requestSize⟩, rfl⟩⟩
  · simp only [RequestDescriptor.timeoutHandler, hserves.retryCount, if_neg hlast]
  · rw [← hserves.retryCount]
    rfl
  · simp only [RequestDescriptor.adjustRequestHeaderOpaque, RequestDescriptor.currentOpaque,
      hd.rdIndex, hepoch, opaqueOf]

/-- Writing back what was read changes nothing. -/
theorem set_eq_self {rds : Rds} {i : Nat} {d : RequestDescriptor Nat} (h : rds[i]? = some d) :
    rds.set i d = rds := by
  obtain ⟨hlt, rfl⟩ := List.getElem?_eq_some_iff.mp h
  exact List.set_getElem_self hlt

/-- A handler that hands over no request only writes its descriptor back. -/
theorem afterHandler_none (c : MicaClient) (i : Nat) (d : RequestDescriptor Nat) :
    c.afterHandler i d none = c.setRd i d := by
  simp [afterHandler, setRd]

/-- A timeout resolves the query with `kill_flow`, or the request goes to an assembler again. -/
theorem checkRequestDescriptorTimeout_spec (h : ClientOk c p.slot none) {i : Nat}
    {d : RequestDescriptor Nat} (hd : c.rds[i]? = some d) (harmed : d.toArmed = true) :
    ∃ a q r c', p.slot i = ⟨a, .inFlight q r⟩ ∧ d.pr = some q ∧
      (c.setRd i { d with toArmed := false }).checkRequestDescriptorTimeout i = .ok c' ∧
      ((r + 1 = RequestDescriptor.maxRetries ∧ Recycles i c c' q .killFlow ∧
          ClientOk c' (Function.update p.slot i ⟨a + 1, .free⟩) none) ∨
        ∃ p', Sends ⟨Function.update p.slot i ⟨a + 1, .pending q (r + 1)⟩, p.log ++ [.timeout q]⟩
            p' c c' ∧
          ClientOk c' p'.slot none) := by
  have hi : i < totalRequestDescriptorCount := h.length ▸ (List.getElem?_eq_some_iff.mp hd).1
  have hok := h.descriptor i d (Option.some_ne_none i) hd
  obtain ⟨q, r, hslot, hserves⟩ := hok.inFlight harmed
  have hd₀ : (c.setRd i { d with toArmed := false }).rds[i]? = some { d with toArmed := false } :=
    List.getElem?_set_self (List.getElem?_eq_some_iff.mp hd).1
  rw [hslot] at hok
  by_cases hlast : r + 1 = RequestDescriptor.maxRetries
  case pos =>
    obtain ⟨d', hhandler, hd'⟩ := timeoutHandler_last hok hlast
    obtain ⟨hrecycles, hclient⟩ := recycle_spec h hi hslot hd' .killFlow
      ⟨{ d with toArmed := false }, rfl⟩
    refine ⟨_, q, r, _, hslot, hserves.pr, ?_, .inl ⟨hlast, hrecycles, hclient⟩⟩
    rw [checkRequestDescriptorTimeout, getRd_eq_ok hd₀, ok_bind, hhandler, ok_bind]
    rfl
  case neg =>
    obtain ⟨d', hhandler, hd'⟩ := timeoutHandler_resend hok hlast
    have hphase : (p.slot i).phase = .inFlight q r := by rw [hslot]
    -- Until it is sent again the descriptor is in no assembler and not recycled.
    have hlimbo := (h.take hi hphase).setLimbo d' ⟨(p.slot i).age + 1, .pending q (r + 1)⟩
    have hhandled : ClientOk ((c.setRd i { d with toArmed := false }).afterHandler i d' none)
        (Function.update p.slot i ⟨(p.slot i).age + 1, .pending q (r + 1)⟩) (some i) :=
      hlimbo.congr (List.set_set ..) rfl rfl rfl
    have hd₁ : ((c.setRd i { d with toArmed := false }).afterHandler i d' none).rds[i]? =
        some d' :=
      List.getElem?_set_self (List.getElem?_eq_some_iff.mp hd₀).1
    obtain ⟨c₂, p₂, hcall, hsends, hsame, hd₂, hdone⟩ :=
      sendRequestDescriptor_spec (p := ⟨Function.update p.slot i
        ⟨(p.slot i).age + 1, .pending q (r + 1)⟩, p.log ++ [.timeout q]⟩)
        hhandled hi hd₁ hd'.phase.1.requestSize
    simp only [Function.update_self] at hdone
    have hclient : ClientOk c₂ p₂.slot none :=
      (hdone q (r + 1) d' rfl hd').congr (set_eq_self hd₂).symm rfl rfl rfl
    refine ⟨_, q, r, c₂, hslot, hserves.pr, ?_, .inr ⟨p₂, ?_, hclient⟩⟩
    · rw [checkRequestDescriptorTimeout, getRd_eq_ok hd₀, ok_bind, hhandler, ok_bind]
      exact hcall
    · obtain ⟨es, evs, hes, hevs⟩ := hsends.events
      exact ⟨hsends.reach, hsends.ages, ⟨es, evs, by rw [hes, afterHandler_none]; rfl, hevs⟩,
        hsends.granted, hsends.pendingWorkQueue, hsends.recycledRds, hsends.queryCount⟩

/-- A response that is not too old is ignored, or it answers the latest transmission. -/
theorem receiveRecord_spec (h : ClientOk c p.slot none)
    (hinv : Inv RequestDescriptor.maxRetries p) {i age q j : Nat}
    (hj : p.log[j]? = some (.transmit i age q)) (hi : i < totalRequestDescriptorCount)
    {rec : ResponseRecord} (hid : rec.rh.opaqueId = opaqueOf i age)
    (hfresh : agesOf p i < age + 2 ^ 16) :
    c.receiveRecord rec = .ok c ∨
      ∃ r c', p.slot i = ⟨age, .inFlight q r⟩ ∧ c.receiveRecord rec = .ok c' ∧
        Recycles i c c' q (.value rec.pkt) ∧
        ClientOk c' (Function.update p.slot i ⟨age + 1, .free⟩) none := by
  obtain ⟨hidx, hepoch⟩ := header_opaqueOf hi hid
  obtain ⟨d, hd⟩ := h.exists_rd hi
  have hok := h.descriptor i d (Option.some_ne_none i) hd
  by_cases hmatch : rec.rh.epoch = d.epoch
  case neg =>
    left
    rw [receiveRecord, hidx, getRd_eq_ok hd, ok_bind, RequestDescriptor.matchResponse,
      if_pos hmatch, ok_bind]
    change Except.ok (c.afterHandler i d none) = _
    rw [afterHandler_none, setRd, set_eq_self hd]
  case pos =>
    right
    have hle : age ≤ agesOf p i := by
      rcases hinv.aged j i age q hj with hlt | ⟨r, hslot, -⟩
      · exact Nat.le_of_lt hlt
      · exact Nat.le_of_eq (by rw [agesOf, hslot])
    rw [hepoch, hok.epoch] at hmatch
    have hage : age = (p.slot i).age := age_eq_of_epoch_eq hle hfresh hmatch
    -- The slot has the age of the transmission, so the transmission is still in flight.
    obtain ⟨r, hslot⟩ : ∃ r, p.slot i = ⟨age, .inFlight q r⟩ := by
      rcases hinv.aged j i age q hj with hlt | ⟨r, hslot, -⟩
      · omega
      · exact ⟨r, hslot⟩
    rw [hslot] at hok
    have hfreed : DescriptorOk i d.normalRecyclePrep ⟨age + 1, .free⟩ := by
      refine ⟨hok.rdIndex, ?_, rfl, rfl, rfl⟩
      rw [← epoch_succ, ← hok.epoch]
      rfl
    obtain ⟨hrecycles, hclient⟩ := recycle_spec h hi hslot hfreed (.value rec.pkt)
      ⟨d, by rw [setRd, set_eq_self hd]⟩
    refine ⟨r, _, hslot, ?_, hrecycles, hclient⟩
    have hsame : rec.rh.epoch = d.epoch := by rw [hepoch, hok.epoch]
    rw [receiveRecord, hidx, getRd_eq_ok hd, ok_bind, RequestDescriptor.matchResponse,
      if_neg (fun hne => hne hsame), hok.phase.1.pr]
    rfl

end Calls

end Netstar.Proofs.Mica
