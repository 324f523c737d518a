import Netstar.Proofs.Mica.Network

/-!
# `Netstar.Proofs.Mica.Queries`: descriptors and queries of a client

The two main results about a client and its network. In every run a request descriptor is in one
place, and the semaphore counts the recycled descriptors. And a query is resolved at most once, with
a value only by a response to its latest transmission, and with `kill_flow` only after
`max_retries` timeouts.
-/

set_option autoImplicit false

namespace Netstar.Proofs.Mica

open Netstar.Lib
open Netstar.Lib.SlotPool
open Netstar.Spec.Mica

/-! ### The places of a descriptor -/

/-- Where a request descriptor can be. -/
inductive Place where
  /-- In `_recycled_rds`. -/
  | recycled
  /-- In `_rd_idxs` or `_send_stream` of the assembler at this index. -/
  | assembler (a : Nat)
  /-- Its timer is armed. -/
  | inFlight
  deriving DecidableEq, Repr

/-- The descriptor `i` is at this place. -/
def AtPlace (c : MicaClient) (i : Nat) : Place → Prop
  | .recycled => i ∈ c.recycledRds
  | .assembler a => ∃ ra, c.ras[a]? = some ra ∧ i ∈ ra.rdIdxs ++ ra.sendStream
  | .inFlight => ∃ d, c.rds[i]? = some d ∧ d.toArmed = true

/-- A descriptor that is in two assemblers is there twice. -/
theorem two_le_count_pendingIdxs {ras : List RequestAssembler} {a b i : Nat}
    {ra rb : RequestAssembler} (hab : a ≠ b) (ha : ras[a]? = some ra) (hb : ras[b]? = some rb)
    (hia : i ∈ ra.rdIdxs ++ ra.sendStream) (hib : i ∈ rb.rdIdxs ++ rb.sendStream) :
    2 ≤ (pendingIdxs ras).count i := by
  have hset := count_pendingIdxs_set ha ⟨0, [], []⟩ i
  have hrest : 0 < (pendingIdxs (ras.set a ⟨0, [], []⟩)).count i := by
    refine List.count_pos_iff.mpr (List.mem_flatMap.mpr ⟨rb, ?_, hib⟩)
    exact List.mem_of_getElem? ((List.getElem?_set_ne hab).trans hb)
  have hone : 0 < (ra.rdIdxs ++ ra.sendStream).count i := List.count_pos_iff.mpr hia
  simp only [List.append_nil, List.count_nil] at hset
  omega

section Places

variable {c : MicaClient} {slot : Nat → Slot} (h : ClientOk c slot none) {i : Nat}

include h

/-- The recycled descriptors are those of the free slots. -/
theorem atPlace_recycled_iff :
    AtPlace c i .recycled ↔ i < totalRequestDescriptorCount ∧ (slot i).phase = .free := by
  rw [AtPlace, ← List.count_pos_iff, h.recycled i, placeIn]
  simp only [ne_eq, reduceCtorEq, not_false_eq_true, and_true]
  split
  case isFalse hi => simp [hi]
  case isTrue hi => cases (slot i).phase <;> simp [placeOf, hi]

/-- The descriptors in flight are those of the slots in flight. -/
theorem atPlace_inFlight_iff (hi : i < totalRequestDescriptorCount) :
    AtPlace c i .inFlight ↔ ∃ q r, (slot i).phase = .inFlight q r := by
  obtain ⟨d, hd⟩ := h.exists_rd hi
  have hphase := (h.descriptor i d (Option.some_ne_none i) hd).phase
  rw [AtPlace, hd]
  cases hslot : (slot i).phase with
  | free =>
    rw [hslot] at hphase
    simp [hphase.2.2]
  | pending q r =>
    rw [hslot] at hphase
    simp [hphase.2]
  | inFlight q r =>
    rw [hslot] at hphase
    simp [hphase.2]

/-- A descriptor in an assembler has a pending slot. -/
theorem pending_of_atPlace {a : Nat} (ha : AtPlace c i (.assembler a)) :
    ∃ q r, (slot i).phase = .pending q r := by
  obtain ⟨ra, hra, hmem⟩ := ha
  have hpending : i ∈ pendingIdxs c.ras :=
    List.mem_flatMap.mpr ⟨ra, List.mem_of_getElem? hra, hmem⟩
  exact (h.pending_of_mem hpending).2.2.2

/-- A descriptor is in exactly one place. -/
theorem existsUnique_atPlace (hi : i < totalRequestDescriptorCount) :
    ∃! place, AtPlace c i place := by
  have hrecycled := atPlace_recycled_iff h (i := i)
  have hflight := atPlace_inFlight_iff h hi
  cases hphase : (slot i).phase with
  | free =>
    refine ⟨.recycled, hrecycled.mpr ⟨hi, hphase⟩, fun place hplace => ?_⟩
    cases place with
    | recycled => rfl
    | assembler a =>
      obtain ⟨q, r, hpending⟩ := pending_of_atPlace h hplace
      rw [hphase] at hpending
      cases hpending
    | inFlight =>
      obtain ⟨q, r, hinFlight⟩ := hflight.mp hplace
      rw [hphase] at hinFlight
      cases hinFlight
  | pending q r =>
    -- The assemblers have the number once in all, so it is in one of them, and only there.
    have hone : (pendingIdxs c.ras).count i = 1 := by
      rw [h.pending i, placeIn_of_lt _ hi (Option.some_ne_none i), hphase]
      rfl
    obtain ⟨ra, hra, hmem⟩ := List.mem_flatMap.mp (List.count_pos_iff.mp (hone ▸ Nat.one_pos))
    obtain ⟨a, ha⟩ := List.getElem?_of_mem hra
    refine ⟨.assembler a, ⟨ra, ha, hmem⟩, fun place hplace => ?_⟩
    cases place with
    | recycled =>
      have hfree := (hrecycled.mp hplace).2
      rw [hphase] at hfree
      cases hfree
    | assembler b =>
      obtain ⟨rb, hb, hmemb⟩ := hplace
      by_contra hne
      have hab : a ≠ b := by
        rintro rfl
        exact hne rfl
      have htwo := two_le_count_pendingIdxs hab ha hb hmem hmemb
      omega
    | inFlight =>
      obtain ⟨q', r', hinFlight⟩ := hflight.mp hplace
      rw [hphase] at hinFlight
      cases hinFlight
  | inFlight q r =>
    refine ⟨.inFlight, hflight.mpr ⟨q, r, hphase⟩, fun place hplace => ?_⟩
    cases place with
    | recycled =>
      have hfree := (hrecycled.mp hplace).2
      rw [hphase] at hfree
      cases hfree
    | assembler a =>
      obtain ⟨q', r', hpending⟩ := pending_of_atPlace h hplace
      rw [hphase] at hpending
      cases hpending
    | inFlight => rfl

/-- No descriptor is twice in the containers. -/
theorem nodup_containers : (c.recycledRds ++ pendingIdxs c.ras).Nodup := by
  rw [List.nodup_iff_count_le_one]
  intro i
  rw [List.count_append, h.recycled i, h.pending i, placeIn]
  split
  · cases (slot i).phase <;> simp [placeOf]
  · simp

end Places

/-- In every run no call of the client fails, so in particular `front()` is never called on an empty
`_recycled_rds` and no armed timer is armed. Every descriptor is in exactly one place, and it is
there once. The entries of `_recycled_rds` are the available units and the granted waiters. -/
theorem descriptors_in_one_place (hash : List UInt8 → BitVec 64) {smpCount : Nat}
    (hsmp : 0 < smpCount) (rqHd : Nat → RequestHeader) (ls : List Network.Label) {n : Network}
    (h : run (Network.step hash) (.create smpCount rqHd) ls = some n) :
    n.error = none ∧
    (∀ i, i < totalRequestDescriptorCount → ∃! place, AtPlace n.client i place) ∧
    (n.client.recycledRds ++
      n.client.ras.flatMap fun ra => ra.rdIdxs ++ ra.sendStream).Nodup ∧
    n.client.recycledRds.length =
      n.client.pendingWorkQueue.count + n.client.granted.length := by
  obtain ⟨p, hn⟩ := exists_netOk hash hsmp rqHd h
  exact ⟨hn.error, fun i hi => existsUnique_atPlace hn.client hi, nodup_containers hn.client,
    hn.units⟩

/-- A query for a key of 8 bytes. -/
def getRequest : Request := ⟨.kGet, 8, List.replicate 8 1, 0, []⟩

/-- The request of the query times out, and its descriptor is in the assembler again. -/
theorem descriptors_in_one_place_resent :
    ∃ n, run (Network.step fun _ => 0) (.create 1 fun _ => .ofBytes [])
        [.query getRequest, .tick, .timeout 0] = some n ∧
      n.error = none ∧ (∃! place, AtPlace n.client 0 place) ∧
      n.client.recycledRds.length =
        n.client.pendingWorkQueue.count + n.client.granted.length := by
  have hsome : (run (Network.step fun _ => 0) (.create 1 fun _ => .ofBytes [])
      [.query getRequest, .tick, .timeout 0]).isSome = true := by
    decide +kernel
  obtain ⟨n, hn⟩ := Option.isSome_iff_exists.mp hsome
  obtain ⟨herror, hplace, -, hunits⟩ := descriptors_in_one_place _ Nat.one_pos _ _ hn
  exact ⟨n, hn, herror, hplace 0 (by decide), hunits⟩

/-! ### The queries -/

/-- The number of timeouts of the query `q`. -/
def timeoutsOf (q : Nat) (log : List NetEvent) : Nat :=
  log.countP fun
    | .timeout _ query => query == some q
    | _ => false

/-- The timeouts of a query are the same in the network's log and in the pool's. -/
theorem timeoutsOf_eq {log : List NetEvent} {log' : List (Event (List UInt8))}
    (h : List.Forall₂ EventRel log log') (q : Nat) : timeoutsOf q log = timeouts q log' := by
  induction h with
  | nil => rfl
  | cons hrel _ ih =>
    rw [timeoutsOf, timeouts, List.countP_cons, List.countP_cons, ← timeoutsOf, ← timeouts, ih]
    cases hrel <;> simp

/-- The event at position `j` is the latest transmission of the query `q`. -/
def LatestTransmission (log : List NetEvent) (j q : Nat) : Prop :=
  (∃ request age, log[j]? = some (.transmit request age) ∧ request.query = some q) ∧
    ∀ (j' : Nat) (request : SentRequest) (age : Nat), j < j' →
      log[j']? = some (.transmit request age) → request.query ≠ some q

/-- The latest transmission in the pool's log is the one in the network's. -/
theorem latestTransmission_of_latest {log : List NetEvent} {log' : List (Event (List UInt8))}
    (h : List.Forall₂ EventRel log log') {j i a q : Nat} (hlatest : Latest log' j i a q) :
    LatestTransmission log j q := by
  constructor
  · obtain ⟨e, he, hrel⟩ := forall₂_getElem? h.flip hlatest.1
    cases hrel with
    | transmit hquery hi hid => exact ⟨_, _, he, hquery⟩
  · intro j' request age hlt hj' hquery
    obtain ⟨e, he, hrel⟩ := forall₂_getElem? h hj'
    cases hrel with
    | @transmit _ _ q' hquery' hi hid =>
      rw [hquery] at hquery'
      cases hquery'
      exact hlatest.2 j' _ _ hlt he

/-- A query resolved in the network's log is resolved in the pool's. -/
theorem EventRel.exists_ending {q : Nat} {outcome : Outcome} {answers : Option Nat}
    {e : Event (List UInt8)} (h : EventRel (.resolve q outcome answers) e) :
    ∃ ending, e = .resolve q ending := by
  cases h with
  | value | killFlow => exact ⟨_, rfl⟩

/-- In every run a query is resolved at most once. It is resolved with a value only by a response to
the latest transmission of the same query, and with `kill_flow` only after `max_retries` timeouts of
this query. -/
theorem queries_resolved_once (hash : List UInt8 → BitVec 64) {smpCount : Nat}
    (hsmp : 0 < smpCount) (rqHd : Nat → RequestHeader) (ls : List Network.Label) {n : Network}
    (h : run (Network.step hash) (.create smpCount rqHd) ls = some n) :
    ∀ before q outcome answers after,
      n.log = before ++ .resolve q outcome answers :: after →
        (∀ outcome' answers', .resolve q outcome' answers' ∉ before) ∧
        (∀ response, outcome = .value response →
          ∃ j, answers = some j ∧ LatestTransmission before j q) ∧
        (outcome = .killFlow → timeoutsOf q before = RequestDescriptor.maxRetries) := by
  obtain ⟨p, hn⟩ := exists_netOk hash hsmp rqHd h
  intro before q outcome answers after hlog
  have hrel := hn.log
  rw [hlog] at hrel
  obtain ⟨before', e, after', hlog', hbefore, he⟩ := forall₂_append_cons hrel
  have hhistory := (inv_of_reachable hn.reach).history before' q
  refine ⟨fun outcome' answers' hmem => ?_, fun response hvalue => ?_, fun hkill => ?_⟩
  · obtain ⟨j, hj⟩ := List.getElem?_of_mem hmem
    obtain ⟨e', he', hrel'⟩ := forall₂_getElem? hbefore hj
    obtain ⟨ending, rfl⟩ := he.exists_ending
    obtain ⟨ending', rfl⟩ := hrel'.exists_ending
    exact (hhistory ending after' hlog').1 ending' (List.mem_of_getElem? he')
  · subst hvalue
    cases he with
    | value _ j _ =>
      obtain ⟨i, a, hlatest⟩ := (hhistory _ _ hlog').2
      exact ⟨j, rfl, latestTransmission_of_latest hbefore hlatest⟩
  · subst hkill
    cases he with
    | killFlow _ =>
      rw [timeoutsOf_eq hbefore]
      exact (hhistory _ _ hlog').2

/-- The query is sent and answered, and then the response arrives a second time. The response packet
has one record, with an empty key and value and the opaque 0 of the first request. -/
theorem queries_resolved_once_duplicate :
    ∃ n request response, run (Network.step fun _ => 0) (.create 1 fun _ => .ofBytes [])
        [.query getRequest, .tick, .receive (List.replicate 72 0) [0],
          .receive (List.replicate 72 0) [0]] = some n ∧
      n.log = [.transmit request 0, .resolve 0 (.value response) (some 0)] ∧
      LatestTransmission [.transmit request 0] 0 0 := by
  have hlog : (run (Network.step fun _ => 0) (.create 1 fun _ => .ofBytes [])
      [.query getRequest, .tick, .receive (List.replicate 72 0) [0],
        .receive (List.replicate 72 0) [0]]).map Network.log =
        some [.transmit ⟨0, ⟨5, 0, 0, 0x08000000#32, 0, 0, 0⟩,
            [5, 0, 0, 0, 0, 0, 0, 8, 0, 0, 0, 0, 0, 0, 0, 0, 0, 0, 0, 0, 0, 0, 0, 0,
              1, 1, 1, 1, 1, 1, 1, 1], some 0⟩ 0,
          .resolve 0 (.value (List.replicate 24 0)) (some 0)] := by
    decide +kernel
  obtain ⟨n, hn, hlog⟩ := Option.map_eq_some_iff.mp hlog
  obtain ⟨-, hvalue, -⟩ := queries_resolved_once _ Nat.one_pos _ _ hn [_] 0 _ _ [] hlog
  obtain ⟨j, hj, hlatest⟩ := hvalue _ rfl
  cases hj
  exact ⟨n, _, _, hn, hlog, hlatest⟩

end Netstar.Proofs.Mica
