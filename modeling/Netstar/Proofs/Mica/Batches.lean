import Netstar.Lib.Run
import Netstar.Proofs.Mica.BatchHeader
import Netstar.Proofs.Mica.MicaClient
import Netstar.Spec.Mica.Batches

/-!
# `Netstar.Proofs.Mica.Batches`: what the request assemblers send

The loop of `consume_send_stream` sends what it has when the next request does not fit, and tries
again. The second try is with an empty packet. If the request is too long for that one too, nothing
changes from then on, and the loop sends empty packets for ever (`consumeRounds_spec`).

`BatchInv` is the invariant of all the assemblers together. It has a lemma for each thing that can
happen to them: `flush` sends a packet, `push` appends a request, and `setRd` changes a descriptor
that is not waiting. `query_spec` and `checkRas_spec` put these together.

`batches_correct_iff` is about runs. They are right as long as each query that gets a descriptor fits
into a packet. `mc_assert` would have stopped the others.
-/

set_option autoImplicit false

namespace Netstar.Proofs.Mica

open Netstar.Lib (ok_bind bind_eq_ok Sat)
open Netstar.Spec.Mica
open Netstar.Spec.Mica.RequestAssembler

/-! ### The loop of `consume_send_stream` -/

/-- What the rounds of a loop come to, for the result of the loop. -/
def RoundsSpec {α : Type} (rounds : Nat → Except MicaError (Option α)) : Except MicaError α → Prop
  | .ok x => ∃ n, rounds n = .ok (some x)
  | .error e => if e = .diverges then ∀ n, rounds n = .ok none else ∃ n, rounds n = .error e

/-- Reading a descriptor never runs without end. -/
theorem getRd_sat (rds : Rds) (i : Nat) :
    Sat (· ≠ MicaError.diverges) (fun d => rds[i]? = some d) (getRd rds i) := by
  rw [getRd]
  split
  · exact fun h => by cases h
  · next h => exact h

/-- Appending the fragments of descriptors never runs without end. -/
theorem appendFrags_sat (rds : Rds) (is : List Nat) :
    Sat (· ≠ MicaError.diverges) (fun _ => True) (appendFrags rds is) := by
  induction is with
  | nil => exact trivial
  | cons i is ih =>
    rw [appendFrags]
    exact (getRd_sat rds i).bind fun d _ => ih.bind fun requests _ => trivial

/-- The descriptors keep their request sizes. -/
def SameSizes (rds rds' : Rds) : Prop :=
  ∀ (i : Nat) (d : RequestDescriptor Nat), rds[i]? = some d →
    ∃ d', rds'[i]? = some d' ∧ d'.requestSize = d.requestSize

/-- Arming the timers never runs without end, and keeps the number of descriptors. -/
theorem armTimers_sat (is : List Nat) (rds : Rds) :
    Sat (· ≠ MicaError.diverges) (SameSizes rds) (armTimers is rds) := by
  induction is generalizing rds with
  | nil => exact fun i d hd => ⟨d, hd, rfl⟩
  | cons k is ih =>
    rw [armTimers]
    apply (getRd_sat rds k).bind
    intro d hd
    rw [RequestDescriptor.armTimer]
    split
    · exact fun h => by cases h
    · apply (ih (rds.set k { d with toArmed := true })).mono
      intro rds' hsame i di hi
      by_cases hki : k = i
      · subst hki
        rw [hd] at hi
        cases hi
        exact hsame k { d with toArmed := true }
          (List.getElem?_set_self (List.getElem?_eq_some_iff.mp hd).1)
      · exact hsame i di ((List.getElem?_set_ne hki).trans hi)

/-- `send_request_packet` has no loop to get stuck in. It leaves an empty packet behind. -/
theorem sendRequestPacket_sat (ra : RequestAssembler) (rds : Rds) :
    Sat (· ≠ MicaError.diverges)
      (fun x => x.1 = { ra with rdIdxs := [], remainingSize := maxReqLen } ∧ SameSizes rds x.2.1)
      (ra.sendRequestPacket rds) := by
  rw [sendRequestPacket]
  exact (appendFrags_sat rds ra.rdIdxs).bind fun requests _ =>
    (armTimers_sat ra.rdIdxs rds).bind fun rds' hsame => ⟨rfl, hsame⟩

/-- The stream does not matter for `send_request_packet`. -/
theorem sendRequestPacket_stream (ra : RequestAssembler) (rds : Rds) (stream : List Nat) :
    { ra with sendStream := stream }.sendRequestPacket rds =
      (ra.sendRequestPacket rds).map fun x => ({ x.1 with sendStream := stream }, x.2) := by
  rw [sendRequestPacket, sendRequestPacket]
  dsimp only
  cases appendFrags rds ra.rdIdxs with
  | error e => rfl
  | ok requests =>
    rw [ok_bind, ok_bind]
    cases armTimers ra.rdIdxs rds with
    | error e => rfl
    | ok rds => rfl

/-- A request that does not fit into an empty packet keeps the loop running. -/
theorem consumeRounds_stuck {rds : Rds} {i : Nat} {d : RequestDescriptor Nat} {is : List Nat}
    (hd : rds[i]? = some d) (hlong : maxReqLen < d.requestSize) (n : Nat) :
    consumeRounds n ⟨maxReqLen, [], i :: is⟩ rds = .ok none := by
  induction n with
  | zero => rfl
  | succ n ih =>
    rw [consumeRounds]
    dsimp only
    have hsend : sendRequestPacket ⟨maxReqLen, [], i :: is⟩ rds =
        .ok (⟨maxReqLen, [], i :: is⟩, rds, [.sendPacket []]) := rfl
    rw [getRd_eq_ok hd, ok_bind, if_pos hlong, hsend, ok_bind]
    dsimp only
    rw [ih]
    rfl

/-- A loop that starts with one round more. -/
theorem RoundsSpec.succ {α : Type} {rounds rounds' : Nat → Except MicaError (Option α)} {g : α → α}
    {r : Except MicaError α} (h : RoundsSpec rounds' r) (hzero : rounds 0 = .ok none)
    (hsucc : ∀ n, rounds (n + 1) = (rounds' n).map (Option.map g)) :
    RoundsSpec rounds (r.map g) := by
  cases r with
  | ok x =>
    obtain ⟨n, hn⟩ := h
    exact ⟨n + 1, by rw [hsucc, hn]; rfl⟩
  | error e =>
    show if e = .diverges then _ else _
    by_cases he : e = .diverges
    · rw [if_pos he]
      have h : ∀ n, rounds' n = .ok none := by
        simpa only [RoundsSpec, if_pos he] using h
      intro n
      cases n with
      | zero => exact hzero
      | succ n => rw [hsucc, h]; rfl
    · rw [if_neg he]
      have h : ∃ n, rounds' n = .error e := by
        simpa only [RoundsSpec, if_neg he] using h
      obtain ⟨n, hn⟩ := h
      exact ⟨n + 1, by rw [hsucc, hn]; rfl⟩

/-- A round that sends. -/
theorem consumeRounds_send {ra : RequestAssembler} {rds : Rds} {i : Nat} {is : List Nat}
    {d : RequestDescriptor Nat} (hd : rds[i]? = some d) (hfull : ra.remainingSize < d.requestSize)
    (n : Nat) :
    consumeRounds (n + 1) { ra with sendStream := i :: is } rds =
      ra.sendRequestPacket rds >>= fun x =>
        (consumeRounds n { x.1 with sendStream := i :: is } x.2.1).map
          (Option.map fun y => (y.1, y.2.1, x.2.2 ++ y.2.2)) := by
  rw [consumeRounds]
  dsimp only
  rw [getRd_eq_ok hd, ok_bind, if_pos hfull, sendRequestPacket_stream]
  cases ra.sendRequestPacket rds with
  | error e => rfl
  | ok x =>
    rw [ok_bind]
    show (consumeRounds n _ _ >>= _) = _
    cases consumeRounds n { x.1 with sendStream := i :: is } x.2.1 with
    | error e => rfl
    | ok y => cases y <;> rfl

/-- A round that takes a request from the stream. -/
theorem consumeRounds_push {ra : RequestAssembler} {rds : Rds} {i : Nat} {is : List Nat}
    {d : RequestDescriptor Nat} (hd : rds[i]? = some d) (hfit : ¬ra.remainingSize < d.requestSize)
    (n : Nat) :
    consumeRounds (n + 1) { ra with sendStream := i :: is } rds =
      consumeRounds n ⟨ra.remainingSize - d.requestSize, ra.rdIdxs ++ [i], is⟩ rds := by
  rw [consumeRounds]
  dsimp only
  rw [getRd_eq_ok hd, ok_bind, if_neg hfit]

/-- The model of the loop takes a request from the stream. -/
theorem consumeLoop_push {ra : RequestAssembler} {rds : Rds} {i : Nat} (is : List Nat)
    {d : RequestDescriptor Nat} (hd : rds[i]? = some d) (hfit : ¬ra.remainingSize < d.requestSize) :
    consumeLoop (i :: is) ra rds =
      consumeLoop is { ra with
        rdIdxs := ra.rdIdxs ++ [i], remainingSize := ra.remainingSize - d.requestSize } rds := by
  rw [consumeLoop, getRd_eq_ok hd, ok_bind, makeRoom, if_neg hfit, ok_bind]
  dsimp only
  rw [if_neg hfit]
  cases consumeLoop is _ rds with
  | error e => rfl
  | ok x => rfl

/-- The model of the loop sends, and looks at the same request again. -/
theorem consumeLoop_send {ra : RequestAssembler} {rds : Rds} {i : Nat} (is : List Nat)
    {d : RequestDescriptor Nat} (hd : rds[i]? = some d) (hfull : ra.remainingSize < d.requestSize) :
    consumeLoop (i :: is) ra rds =
      ra.sendRequestPacket rds >>= fun x =>
        if maxReqLen < d.requestSize then .error .diverges
        else (consumeLoop (i :: is) x.1 x.2.1).map fun y => (y.1, y.2.1, x.2.2 ++ y.2.2) := by
  have hsat := sendRequestPacket_sat ra rds
  rw [consumeLoop, getRd_eq_ok hd, ok_bind, makeRoom, if_pos hfull]
  cases hsend : ra.sendRequestPacket rds with
  | error e => rfl
  | ok x =>
    rw [hsend] at hsat
    obtain ⟨ra', rds', es⟩ := x
    obtain ⟨rfl, hsame⟩ := hsat
    obtain ⟨d', hd', hsize⟩ := hsame i d hd
    rw [ok_bind, ok_bind]
    dsimp only
    by_cases hlong : maxReqLen < d.requestSize
    · rw [if_pos hlong, if_pos hlong]
    · rw [if_neg hlong, if_neg hlong, consumeLoop_push is hd' (by rw [hsize]; exact hlong), hsize]
      cases consumeLoop is _ rds' with
      | error e => rfl
      | ok y => rfl

/-- The `while` loop of the source does what `consume_send_stream` of the model does, and it runs for
ever when the model says so. -/
theorem consumeRounds_spec (is : List Nat) (ra : RequestAssembler) (rds : Rds) :
    RoundsSpec (fun n => consumeRounds n { ra with sendStream := is } rds)
      (consumeLoop is ra rds) := by
  induction is generalizing ra rds with
  | nil => exact ⟨1, rfl⟩
  | cons i is ih =>
    have hget := getRd_sat rds i
    cases hd : getRd rds i with
    | error e =>
      rw [hd] at hget
      have hround : consumeRounds 1 { ra with sendStream := i :: is } rds = .error e := by
        rw [consumeRounds]
        dsimp only
        rw [hd]
        rfl
      rw [consumeLoop, hd]
      show if e = .diverges then _ else _
      rw [if_neg hget]
      exact ⟨1, hround⟩
    | ok d =>
      rw [hd] at hget
      -- A request that fits is taken in one round. The induction hypothesis has the rest.
      have hpush : ∀ ra rds d, rds[i]? = some d → ¬ra.remainingSize < d.requestSize →
          RoundsSpec (fun n => consumeRounds n { ra with sendStream := i :: is } rds)
            (consumeLoop (i :: is) ra rds) := by
        intro ra rds d hd hfit
        have hid : ∀ r : Except MicaError (RequestAssembler × Rds × List ClientEffect),
            r.map id = r := by
          rintro (_ | _) <;> rfl
        rw [consumeLoop_push is hd hfit, ← hid (consumeLoop is _ rds)]
        apply RoundsSpec.succ (ih _ rds) rfl
        intro n
        rw [consumeRounds_push hd hfit, Option.map_id_fun]
        show _ = (consumeRounds n _ rds).map id
        cases consumeRounds n ⟨ra.remainingSize - d.requestSize, ra.rdIdxs ++ [i], is⟩ rds <;> rfl
      by_cases hfull : ra.remainingSize < d.requestSize
      · rw [consumeLoop_send is hget hfull]
        have hsat := sendRequestPacket_sat ra rds
        cases hsend : ra.sendRequestPacket rds with
        | error e =>
          rw [hsend] at hsat
          show if e = .diverges then _ else _
          rw [if_neg hsat]
          refine ⟨1, ?_⟩
          dsimp only
          rw [consumeRounds_send hget hfull, hsend]
          rfl
        | ok x =>
          rw [hsend] at hsat
          obtain ⟨ra', rds', es⟩ := x
          obtain ⟨rfl, hsame⟩ := hsat
          obtain ⟨d', hd', hsize⟩ := hsame i d hget
          rw [ok_bind]
          by_cases hlong : maxReqLen < d.requestSize
          · rw [if_pos hlong]
            intro n
            cases n with
            | zero => rfl
            | succ n =>
              dsimp only
              rw [consumeRounds_send hget hfull, hsend, ok_bind]
              dsimp only
              rw [consumeRounds_stuck hd' (by rw [hsize]; exact hlong)]
              rfl
          · rw [if_neg hlong]
            have hrest := hpush { ra with rdIdxs := [], remainingSize := maxReqLen } rds' d' hd'
              (by rw [hsize]; exact hlong)
            exact hrest.succ rfl fun n => by rw [consumeRounds_send hget hfull, hsend]; rfl
      · exact hpush ra rds d hget hfull

/-- The loop of `consume_send_stream` ends if and only if the model does not say that it diverges. -/
theorem consumeSendStream_terminates_iff (ra : RequestAssembler) (rds : Rds) :
    (∃ n, consumeRounds n ra rds ≠ .ok none) ↔ ra.consumeSendStream rds ≠ .error .diverges := by
  have hspec := consumeRounds_spec ra.sendStream ra rds
  rw [consumeSendStream]
  cases h : consumeLoop ra.sendStream ra rds with
  | ok x =>
    rw [h] at hspec
    obtain ⟨n, hn⟩ := hspec
    have hn : consumeRounds n ra rds = .ok (some x) := hn
    refine ⟨(fun _ h => by cases h), fun _ => ⟨n, ?_⟩⟩
    rw [hn]
    exact fun h => by cases h
  | error e =>
    rw [h] at hspec
    by_cases he : e = .diverges
    · have hall : ∀ n, consumeRounds n ra rds = .ok none := by
        simpa only [RoundsSpec, if_pos he] using hspec
      rw [he]
      exact ⟨fun hends => hends.elim fun n hn => absurd (hall n) hn, fun hne => absurd rfl hne⟩
    · have hsome : ∃ n, consumeRounds n ra rds = .error e := by
        simpa only [RoundsSpec, if_neg he] using hspec
      obtain ⟨n, hn⟩ := hsome
      refine ⟨fun _ h => he (Except.error.inj h), fun _ => ⟨n, ?_⟩⟩
      rw [hn]
      exact fun h => by cases h

/-! ### All assemblers together -/

open Netstar.Spec.Mica.Batches
open Netstar.Spec.Mica.MicaClient (calcPartitionId)

/-- What these descriptors add to a packet. -/
def batchSize (rds : Rds) (is : List Nat) : Nat :=
  (is.map fun i => (rds[i]?.map (·.requestSize)).getD 0).sum

/-- Descriptor `i` waits in assembler `a` for its packet. -/
structure Ready (c : MicaClient) (a i : Nat) : Prop where
  unarmed : ∃ d, c.rds[i]? = some d ∧ d.toArmed = false ∧ d.requestSize = d.appendFrags.length
  assembler : assemblerOf c i = a

/-- The requests of a packet are there, and they fit. -/
def PacketFits (requests : List SentRequest) : Prop :=
  requests ≠ [] ∧ (requests.map (·.frags.length)).sum ≤ maxReqLen ∧
    ∀ r ∈ requests, requestHeaderSize ≤ r.frags.length

/-- Assembler `a` has sent a part of what was appended to it. It holds the rest, and knows the size of
the rest. -/
structure AssemblerInv (c : MicaClient) (appended : List Nat) (a : Nat) (ra : RequestAssembler) :
    Prop where
  stream : ra.sendStream = []
  room : ra.remainingSize + batchSize c.rds ra.rdIdxs = maxReqLen
  ready : ∀ i ∈ ra.rdIdxs, Ready c a i
  order : sentBy c a ++ ra.rdIdxs = appended

/-- The invariant of all assemblers. -/
structure BatchInv (c : MicaClient) (appends : List (Nat × Nat)) : Prop where
  whichRa : c.whichRa < c.ras.length
  nodup : (appends.map (·.2)).Nodup
  fresh : ∀ i d, c.rds[i]? = some d → i ∉ appends.map (·.2) → d.toArmed = false
  assembler : ∀ a ra, c.ras[a]? = some ra →
    AssemblerInv c ((appends.filter fun x => x.1 = a).map (·.2)) a ra
  fits : ∀ requests ∈ packets c, PacketFits requests

/-- The descriptors look the same to the assemblers. -/
structure SameRequest (d d' : RequestDescriptor Nat) : Prop where
  toArmed : d'.toArmed = d.toArmed
  requestSize : d'.requestSize = d.requestSize
  frags : d'.appendFrags = d.appendFrags
  keyHash : d'.rqHd.keyHash = d.rqHd.keyHash

/-- These descriptors look the same to the assemblers. -/
def SameRequests (rds rds' : Rds) (is : List Nat) : Prop :=
  ∀ i ∈ is, ∀ d, rds[i]? = some d → ∃ d', rds'[i]? = some d' ∧ SameRequest d d'

/-- The assembler of a descriptor is the partition of its key's hash. -/
theorem assemblerOf_eq {c : MicaClient} {i : Nat} {d : RequestDescriptor Nat}
    (hd : c.rds[i]? = some d) :
    assemblerOf c i = calcPartitionId d.rqHd.keyHash c.ras.length := by
  rw [assemblerOf, hd]
  rfl

/-- Whether a descriptor is ready depends on its own request only. -/
theorem Ready.congr {c c' : MicaClient} {a i : Nat} {is : List Nat} (h : Ready c a i)
    (hi : i ∈ is) (hsame : SameRequests c.rds c'.rds is) (hlen : c'.ras.length = c.ras.length) :
    Ready c' a i := by
  obtain ⟨d, hd, hunarmed, hsize⟩ := h.unarmed
  obtain ⟨d', hd', hdd'⟩ := hsame i hi d hd
  constructor
  · exact ⟨d', hd', hdd'.toArmed.trans hunarmed, by rw [hdd'.requestSize, hsize, hdd'.frags]⟩
  · rw [assemblerOf_eq hd', hdd'.keyHash, hlen, ← assemblerOf_eq hd, h.assembler]

/-- The size of a batch depends on the requests in it only. -/
theorem batchSize_congr {c c' : MicaClient} {a : Nat} {is : List Nat} (h : ∀ i ∈ is, Ready c a i)
    (hsame : SameRequests c.rds c'.rds is) : batchSize c'.rds is = batchSize c.rds is := by
  rw [batchSize, batchSize]
  congr 1
  apply List.map_congr_left
  intro i hi
  obtain ⟨d, hd, -⟩ := (h i hi).unarmed
  obtain ⟨d', hd', hdd'⟩ := hsame i hi d hd
  rw [hd, hd', Option.map_some, Option.map_some, hdd'.requestSize]

/-- The invariant of an assembler depends on its own descriptors and on what it has sent. -/
theorem AssemblerInv.congr {c c' : MicaClient} {appended : List Nat} {a : Nat}
    {ra : RequestAssembler} (h : AssemblerInv c appended a ra)
    (hsame : SameRequests c.rds c'.rds ra.rdIdxs) (hlen : c'.ras.length = c.ras.length)
    (hsent : sentBy c' a = sentBy c a) : AssemblerInv c' appended a ra where
  stream := h.stream
  room := by rw [batchSize_congr h.ready hsame, h.room]
  ready := fun i hi => (h.ready i hi).congr hi hsame hlen
  order := by rw [hsent, h.order]

/-! ### A packet -/

/-- A packet sent is the last one of the client's packets. -/
theorem packets_append (c : MicaClient) (requests : List SentRequest) :
    packets { c with effects := c.effects ++ [.sendPacket requests] } = packets c ++ [requests] := by
  rw [packets, packets, List.filterMap_append]
  rfl

/-- What a packet of assembler `a` carries. -/
theorem sentRequests_ready {c : MicaClient} {a : Nat} {is : List Nat}
    (h : ∀ i ∈ is, Ready c a i) :
    (sentRequests c.rds is).map (·.rdIdx) = is ∧
      ((sentRequests c.rds is).map (·.frags.length)).sum = batchSize c.rds is ∧
      ∀ r ∈ sentRequests c.rds is, requestHeaderSize ≤ r.frags.length ∧
        calcPartitionId r.rqHd.keyHash c.ras.length = a := by
  induction is with
  | nil => exact ⟨rfl, rfl, nofun⟩
  | cons i is ih =>
    obtain ⟨hi, his⟩ := List.forall_mem_cons.mp h
    obtain ⟨hidx, hsum, hall⟩ := ih his
    obtain ⟨d, hd, -, hsize⟩ := hi.unarmed
    have hcons : sentRequests c.rds (i :: is) = sentRequest i d :: sentRequests c.rds is := by
      rw [sentRequests, List.filterMap_cons, hd]
      rfl
    rw [hcons]
    refine ⟨?_, ?_, List.forall_mem_cons.mpr ⟨⟨?_, ?_⟩, hall⟩⟩
    · rw [List.map_cons, hidx]
      rfl
    · have hfrags : (sentRequest i d).frags.length = d.requestSize := hsize.symm
      rw [List.map_cons, List.sum_cons, hsum, hfrags, batchSize, batchSize, List.map_cons,
        List.sum_cons, hd]
      rfl
    · exact le_length_appendFrags d
    · exact (assemblerOf_eq hd).symm.trans hi.assembler

/-- The requests of a packet of assembler `a` count for `a` only. -/
theorem filter_sentRequests {c : MicaClient} {a : Nat} {is : List Nat}
    (h : ∀ i ∈ is, Ready c a i) (b : Nat) :
    (((sentRequests c.rds is).filter fun r =>
      calcPartitionId r.rqHd.keyHash c.ras.length = b).map (·.rdIdx)) = if a = b then is else [] := by
  obtain ⟨hidx, -, hall⟩ := sentRequests_ready h
  by_cases hab : a = b
  · rw [if_pos hab, List.filter_eq_self.mpr (fun r hr => by simpa [hab] using (hall r hr).2), hidx]
  · rw [if_neg hab, List.filter_eq_nil_iff.mpr (fun r hr => by simpa [(hall r hr).2] using hab)]
    rfl

/-- The descriptors in other packets do not notice that timers were armed. -/
theorem sameRequests_armAll {rds : Rds} {is sent : List Nat} (h : ∀ i ∈ is, i ∉ sent) :
    SameRequests rds (armAll sent rds) is := by
  intro i hi d hd
  refine ⟨d, ?_, ⟨rfl, rfl, rfl, rfl⟩⟩
  rw [getElem?_armAll, hd, Option.map_some, if_neg (h i hi)]

namespace BatchInv

variable {c : MicaClient} {appends : List (Nat × Nat)}

/-- The descriptors in an assembler wait in the order in which they were appended. -/
theorem rdIdxs_sublist (h : BatchInv c appends) {a : Nat} {ra : RequestAssembler}
    (hra : c.ras[a]? = some ra) : ra.rdIdxs.Sublist (appends.map (·.2)) := by
  have hsub := (List.sublist_append_right (sentBy c a) ra.rdIdxs)
  rw [(h.assembler a ra hra).order] at hsub
  exact hsub.trans (List.filter_sublist.map _)

/-- No descriptor waits twice in an assembler. -/
theorem nodup_rdIdxs (h : BatchInv c appends) {a : Nat} {ra : RequestAssembler}
    (hra : c.ras[a]? = some ra) : ra.rdIdxs.Nodup :=
  h.nodup.sublist (h.rdIdxs_sublist hra)

/-- The descriptors in an assembler have no timer armed. -/
theorem unarmed_rdIdxs (h : BatchInv c appends) {a : Nat} {ra : RequestAssembler}
    (hra : c.ras[a]? = some ra) : Unarmed c.rds ra.rdIdxs := by
  intro i hi
  obtain ⟨d, hd, hunarmed, -⟩ := ((h.assembler a ra hra).ready i hi).unarmed
  exact ⟨d, hd, hunarmed⟩

/-- A packet goes out with what assembler `a` has collected. -/
theorem flush (h : BatchInv c appends) {a : Nat} {ra : RequestAssembler}
    (hra : c.ras[a]? = some ra) (hne : ra.rdIdxs ≠ []) :
    BatchInv
      { c with
          ras := c.ras.set a ⟨maxReqLen, [], []⟩, rds := armAll ra.rdIdxs c.rds
          effects := c.effects ++ [.sendPacket (sentRequests c.rds ra.rdIdxs)] } appends := by
  have hinv := h.assembler a ra hra
  -- The packet has the collected requests, in the order in which they were appended.
  obtain ⟨hidx, hsum, hall⟩ := sentRequests_ready hinv.ready
  have hsent : ∀ b, sentBy { c with
      ras := c.ras.set a ⟨maxReqLen, [], []⟩, rds := armAll ra.rdIdxs c.rds
      effects := c.effects ++ [.sendPacket (sentRequests c.rds ra.rdIdxs)] } b =
        sentBy c b ++ if a = b then ra.rdIdxs else [] := by
    intro b
    rw [← filter_sentRequests hinv.ready b, sentBy, sentBy, ← List.map_append, ← List.filter_append,
      List.length_set, ← List.flatten_concat, ← packets_append]
    rfl
  constructor
  · rw [List.length_set]
    exact h.whichRa
  · exact h.nodup
  · intro i d hd hnew
    rw [getElem?_armAll] at hd
    obtain ⟨d₀, hd₀, rfl⟩ := Option.map_eq_some_iff.mp hd
    have hout : i ∉ ra.rdIdxs := fun hi => hnew ((h.rdIdxs_sublist hra).subset hi)
    rw [if_neg hout]
    exact h.fresh i d₀ hd₀ hnew
  · intro b rb hrb
    by_cases hab : a = b
    · subst hab
      rw [List.getElem?_set_self (List.getElem?_eq_some_iff.mp hra).1] at hrb
      cases hrb
      refine ⟨rfl, rfl, nofun, ?_⟩
      rw [hsent, if_pos rfl, List.append_nil, hinv.order]
    · rw [List.getElem?_set_ne hab] at hrb
      have hother := h.assembler b rb hrb
      refine hother.congr (sameRequests_armAll ?_) List.length_set ?_
      · -- A descriptor is in one assembler only.
        intro i hi hia
        exact hab ((hinv.ready i hia).assembler.symm.trans (hother.ready i hi).assembler)
      · rw [hsent, if_neg hab, List.append_nil]
  · intro requests hrequests
    have hmem : requests ∈ packets c ++ [sentRequests c.rds ra.rdIdxs] := by
      rw [← packets_append]
      exact hrequests
    rcases List.mem_append.mp hmem with hold | hnew
    · exact h.fits requests hold
    · rw [List.mem_singleton.mp hnew]
      refine ⟨?_, ?_, fun r hr => (hall r hr).1⟩
      · intro hnil
        rw [hnil] at hidx
        exact hne hidx.symm
      · have := hinv.room
        omega

/-- A descriptor changes, but no assembler notices. -/
theorem setRd (h : BatchInv c appends) {i : Nat} {d d' : RequestDescriptor Nat}
    (hd : c.rds[i]? = some d) (harmed : d'.toArmed = d.toArmed)
    (hsame : i ∈ appends.map (·.2) → SameRequest d d') : BatchInv (c.setRd i d') appends := by
  have hlt := (List.getElem?_eq_some_iff.mp hd).1
  constructor
  · exact h.whichRa
  · exact h.nodup
  · intro k dk hk hnew
    by_cases hik : i = k
    · subst hik
      rw [MicaClient.setRd, List.getElem?_set_self hlt] at hk
      cases hk
      rw [harmed]
      exact h.fresh i d hd hnew
    · rw [MicaClient.setRd, List.getElem?_set_ne hik] at hk
      exact h.fresh k dk hk hnew
  · intro a ra hra
    refine (h.assembler a ra hra).congr ?_ rfl rfl
    intro k hk dk hdk
    by_cases hik : i = k
    · subst hik
      rw [hd] at hdk
      cases hdk
      exact ⟨d', List.getElem?_set_self hlt, hsame ((h.rdIdxs_sublist hra).subset hk)⟩
    · exact ⟨dk, by rw [MicaClient.setRd, List.getElem?_set_ne hik, hdk], ⟨rfl, rfl, rfl, rfl⟩⟩
  · exact h.fits

/-- Assembler `a` takes a new request that fits. -/
theorem push (h : BatchInv c appends) {a i : Nat} {ra : RequestAssembler}
    (hra : c.ras[a]? = some ra) {d : RequestDescriptor Nat} (hd : c.rds[i]? = some d)
    (hnew : i ∉ appends.map (·.2)) (hsize : d.requestSize = d.appendFrags.length)
    (hpart : calcPartitionId d.rqHd.keyHash c.ras.length = a)
    (hfit : d.requestSize ≤ ra.remainingSize) :
    BatchInv
      { c with
          ras := c.ras.set a ⟨ra.remainingSize - d.requestSize, ra.rdIdxs ++ [i], []⟩ }
      (appends ++ [(a, i)]) := by
  have hinv := h.assembler a ra hra
  have hunarmed := h.fresh i d hd hnew
  constructor
  · rw [List.length_set]
    exact h.whichRa
  · rw [List.map_append, List.nodup_append]
    refine ⟨h.nodup, List.nodup_singleton i, ?_⟩
    intro k hk k' hk' heq
    rw [heq, List.mem_singleton.mp hk'] at hk
    exact hnew hk
  -- A descriptor that no batch has taken is not the new one either.
  · intro k dk hk hout
    rw [List.map_append] at hout
    exact h.fresh k dk hk fun hmem => hout (List.mem_append_left _ hmem)
  · intro b rb hrb
    have hsent : sentBy { c with
        ras := c.ras.set a ⟨ra.remainingSize - d.requestSize, ra.rdIdxs ++ [i], []⟩ } b =
          sentBy c b := by
      rw [sentBy, sentBy, List.length_set]
      rfl
    by_cases hab : a = b
    · subst hab
      rw [List.getElem?_set_self (List.getElem?_eq_some_iff.mp hra).1] at hrb
      cases hrb
      refine ⟨rfl, ?_, ?_, ?_⟩
      · -- The room that the request takes is the room that is missing.
        have hroom := hinv.room
        have hbatch : batchSize c.rds (ra.rdIdxs ++ [i]) =
            batchSize c.rds ra.rdIdxs + d.requestSize := by
          rw [batchSize, batchSize, List.map_append, List.sum_append, List.map_singleton,
            List.sum_singleton, hd]
          rfl
        dsimp only
        omega
      · intro k hk
        rcases List.mem_append.mp hk with hk | hk
        · exact (hinv.ready k hk).congr hk (fun k _ dk hdk => ⟨dk, hdk, ⟨rfl, rfl, rfl, rfl⟩⟩)
            List.length_set
        · rw [List.mem_singleton.mp hk]
          refine ⟨⟨d, hd, hunarmed, hsize⟩, ?_⟩
          show calcPartitionId ((c.rds[i]?.map (·.rqHd.keyHash)).getD 0) (c.ras.set a _).length = a
          rw [List.length_set, hd]
          exact hpart
      -- The new request comes last among those of its assembler.
      · rw [hsent, ← List.append_assoc, hinv.order, List.filter_append, List.map_append]
        simp
    -- The other assemblers do not see it.
    · rw [List.getElem?_set_ne hab] at hrb
      have hfilter : (appends ++ [(a, i)]).filter (fun x => x.1 = b) =
          appends.filter (fun x => x.1 = b) := by
        rw [List.filter_append, List.filter_singleton]
        simp [hab]
      rw [hfilter]
      exact (h.assembler b rb hrb).congr
        (fun k _ dk hdk => ⟨dk, hdk, ⟨rfl, rfl, rfl, rfl⟩⟩) List.length_set hsent
  · exact h.fits

/-- Free descriptors and waiting queries do not matter. -/
theorem congr (h : BatchInv c appends) {c' : MicaClient} (hrds : c'.rds = c.rds)
    (hras : c'.ras = c.ras) (hwhich : c'.whichRa < c'.ras.length)
    (heffects : c'.effects = c.effects) : BatchInv c' appends := by
  obtain ⟨rds, ras, pending, granted, recycled, which, count, effects⟩ := c'
  cases hrds
  cases hras
  cases heffects
  exact ⟨hwhich, h.nodup, h.fresh, fun a ra hra => (h.assembler a ra hra).congr
    (fun k _ dk hdk => ⟨dk, hdk, ⟨rfl, rfl, rfl, rfl⟩⟩) rfl rfl, h.fits⟩

/-- The client has an assembler. -/
theorem length_ras_pos (h : BatchInv c appends) : 0 < c.ras.length :=
  Nat.lt_of_le_of_lt (Nat.zero_le _) h.whichRa

end BatchInv

/-! ### Calls of the client -/

/-- The client did something with its assemblers only. -/
structure OnlyAssemblers (c c' : MicaClient) : Prop where
  ras : c'.ras.length = c.ras.length
  rds : c'.rds.length = c.rds.length
  recycledRds : c'.recycledRds = c.recycledRds
  pendingWorkQueue : c'.pendingWorkQueue = c.pendingWorkQueue

section Calls

variable {c : MicaClient} {appends : List (Nat × Nat)}

/-- A full packet goes out before the request is taken. -/
theorem consumeLoop_full {remaining : Nat} {idxs stream : List Nat} {rds : Rds} {i : Nat}
    {d : RequestDescriptor Nat} (hnodup : idxs.Nodup) (hready : Unarmed rds idxs)
    (hd : rds[i]? = some d) (hfull : remaining < d.requestSize) :
    consumeLoop [i] ⟨remaining, idxs, stream⟩ rds =
      if maxReqLen < d.requestSize then .error .diverges
      else
        (consumeLoop [i] ⟨maxReqLen, [], stream⟩ (armAll idxs rds)).map fun y =>
          (y.1, y.2.1, [.sendPacket (sentRequests rds idxs)] ++ y.2.2) := by
  rw [consumeLoop_send [] hd hfull, sendRequestPacket_eq_ok hnodup hready, ok_bind]

/-- The stream is empty between two calls, so the new descriptor is alone in it. -/
theorem appendNewRequestDescriptor_eq {ra : RequestAssembler} (hstream : ra.sendStream = []) (i : Nat)
    (rds : Rds) :
    ra.appendNewRequestDescriptor i rds =
      consumeLoop [i] ⟨ra.remainingSize, ra.rdIdxs, [i]⟩ rds := by
  rw [appendNewRequestDescriptor, hstream]
  rfl

/-- `send_request_descriptor` puts a new request that fits into a packet into its assembler. -/
theorem sendRequestDescriptor_fits (h : BatchInv c appends) {i : Nat} {d : RequestDescriptor Nat}
    (hd : c.rds[i]? = some d) (hnew : i ∉ appends.map (·.2))
    (hsize : d.requestSize = d.appendFrags.length) (hfit : d.requestSize ≤ maxReqLen) :
    ∃ c', c.sendRequestDescriptor i = .ok c' ∧
      BatchInv c' (appends ++ [(assemblerOf c i, i)]) ∧ c'.rds[i]? = some d ∧
      OnlyAssemblers c c' := by
  have ha := calcPartitionId_lt d.rqHd.keyHash h.length_ras_pos
  have hra := List.getElem?_eq_getElem ha
  rw [assemblerOf_eq hd]
  generalize hpart : calcPartitionId d.rqHd.keyHash c.ras.length = a at *
  generalize hra' : c.ras[a] = ra at hra
  have hinv := h.assembler a ra hra
  have hcall : c.sendRequestDescriptor i =
      c.callRa a (RequestAssembler.appendNewRequestDescriptor i) := by
    rw [MicaClient.sendRequestDescriptor, getRd_eq_ok hd, ok_bind, hpart]
  rw [hcall]
  by_cases hfull : ra.remainingSize < d.requestSize
  · -- Something is in the packet, since the request fits into an empty one.
    have hne : ra.rdIdxs ≠ [] := by
      intro hnil
      have hroom := hinv.room
      rw [hnil] at hroom
      have hroom : ra.remainingSize = maxReqLen := hroom
      omega
    have hsent := h.flush hra hne
    have hout : i ∉ ra.rdIdxs := fun hi => hnew ((h.rdIdxs_sublist hra).subset hi)
    have hd' : (armAll ra.rdIdxs c.rds)[i]? = some d := by
      rw [getElem?_armAll, hd, Option.map_some, if_neg hout]
    have happend : ra.appendNewRequestDescriptor i c.rds =
        .ok (⟨maxReqLen - d.requestSize, [] ++ [i], []⟩, armAll ra.rdIdxs c.rds,
          [.sendPacket (sentRequests c.rds ra.rdIdxs)]) := by
      rw [appendNewRequestDescriptor_eq hinv.stream,
        consumeLoop_full (h.nodup_rdIdxs hra) (h.unarmed_rdIdxs hra) hd hfull,
        if_neg (Nat.not_lt.mpr hfit), consumeLoop_push [] hd' (Nat.not_lt.mpr hfit)]
      rfl
    refine ⟨_, callRa_eq_ok hra happend, ?_, hd', ⟨List.length_set, length_armAll _ _, rfl, rfl⟩⟩
    have hpush := hsent.push (List.getElem?_set_self ha) hd' hnew hsize
      (by rw [List.length_set]; exact hpart) hfit
    rw [List.set_set] at hpush
    exact hpush
  -- There is room in the packet that is being collected.
  · have happend : ra.appendNewRequestDescriptor i c.rds =
        .ok (⟨ra.remainingSize - d.requestSize, ra.rdIdxs ++ [i], []⟩, c.rds, []) := by
      have hfull' : ¬(⟨ra.remainingSize, ra.rdIdxs, [i]⟩ : RequestAssembler).remainingSize <
        d.requestSize := hfull
      rw [appendNewRequestDescriptor_eq hinv.stream, consumeLoop_push [] hd hfull']
      rfl
    refine ⟨_, callRa_eq_ok hra happend, ?_, hd, ⟨List.length_set, rfl, rfl, rfl⟩⟩
    rw [List.append_nil]
    exact h.push hra hd hnew hsize hpart (Nat.not_lt.mp hfull)

/-- A request that fits into no packet keeps `send_request_descriptor` from returning. -/
theorem sendRequestDescriptor_diverges (h : BatchInv c appends) {i : Nat}
    {d : RequestDescriptor Nat} (hd : c.rds[i]? = some d) (hlong : maxReqLen < d.requestSize) :
    c.sendRequestDescriptor i = .error .diverges := by
  have ha := calcPartitionId_lt d.rqHd.keyHash h.length_ras_pos
  have hra := List.getElem?_eq_getElem ha
  rw [MicaClient.sendRequestDescriptor, getRd_eq_ok hd, ok_bind, MicaClient.callRa, hra]
  have hinv := h.assembler _ _ hra
  have hroom := hinv.room
  dsimp only
  rw [appendNewRequestDescriptor_eq hinv.stream,
    consumeLoop_full (h.nodup_rdIdxs hra) (h.unarmed_rdIdxs hra) hd (by omega),
    if_pos hlong]
  rfl

/-- What `check_request_assemblers` leaves behind: assembler `a` has nothing left to send, and the
others have what they had. -/
structure Checked (c c' : MicaClient) (a : Nat) : Prop extends OnlyAssemblers c c' where
  whichRa : c'.whichRa = c.whichRa
  empty : ∀ ra, c'.ras[a]? = some ra → ra.rdIdxs = []
  others : ∀ b, b ≠ a → c'.ras[b]? = c.ras[b]?

/-- Checking an assembler keeps the invariant of the batches. -/
theorem checkRequestAssemblers_inv (h : BatchInv c appends) {a : Nat} (ha : a < c.ras.length) :
    ∃ c', c.checkRequestAssemblers a = .ok c' ∧ BatchInv c' appends ∧ Checked c c' a := by
  have hra := List.getElem?_eq_getElem ha
  generalize c.ras[a] = ra at hra
  have hinv := h.assembler a ra hra
  -- `consume_send_stream` has nothing to do.
  have hcheck : RequestAssembler.check ra c.rds =
      (ra.forceSend c.rds).map fun x => (x.1, x.2.1, x.2.2) := by
    obtain ⟨remaining, idxs, stream⟩ := ra
    cases hinv.stream
    rw [check]
    show (forceSend ⟨remaining, idxs, []⟩ c.rds >>= _) = _
    cases forceSend ⟨remaining, idxs, []⟩ c.rds <;> rfl
  by_cases hsome : 0 < ra.rdIdxs.length
  · have hsend : ra.forceSend c.rds = .ok (⟨maxReqLen, [], []⟩, armAll ra.rdIdxs c.rds,
        [.sendPacket (sentRequests c.rds ra.rdIdxs)]) := by
      have hpacket := sendRequestPacket_eq_ok (h.nodup_rdIdxs hra) (h.unarmed_rdIdxs hra)
        ra.remainingSize ra.sendStream
      rw [forceSend, if_pos hsome]
      exact hpacket.trans (by rw [hinv.stream])
    rw [hsend] at hcheck
    refine ⟨_, callRa_eq_ok hra hcheck, h.flush hra (List.ne_nil_of_length_pos hsome), ?_⟩
    refine ⟨⟨List.length_set, length_armAll _ _, rfl, rfl⟩, rfl, ?_, ?_⟩
    · intro ra' hra'
      rw [List.getElem?_set_self ha] at hra'
      cases hra'
      rfl
    · intro b hb
      exact List.getElem?_set_ne (Ne.symm hb)
  · have hsend : ra.forceSend c.rds = .ok (ra, c.rds, []) := by
      rw [forceSend, if_neg hsome]
    rw [hsend] at hcheck
    have hset : c.ras.set a ra = c.ras := by
      apply List.ext_getElem?
      intro b
      by_cases hab : a = b
      · rw [← hab, List.getElem?_set_self ha, hra]
      · rw [List.getElem?_set_ne hab]
    have hcall := callRa_eq_ok hra hcheck
    dsimp only at hcall
    rw [hset, List.append_nil] at hcall
    refine ⟨c, hcall, h, ⟨⟨rfl, rfl, rfl, rfl⟩, rfl, ?_, fun _ _ => rfl⟩⟩
    intro ra' hra'
    rw [hra] at hra'
    cases hra'
    exact List.eq_nil_of_length_eq_zero (Nat.eq_zero_of_not_pos hsome)

/-- Assembler `a` has nothing to send. -/
def Idle (c : MicaClient) (a : Nat) : Prop := ∀ ra, c.ras[a]? = some ra → ra.rdIdxs = []

/-- The assemblers that the callback of the timer visits have nothing to send after it. -/
theorem checkRas_inv (rounds : Nat) {c : MicaClient} (h : BatchInv c appends) :
    ∃ c', c.checkRas rounds = .ok c' ∧ BatchInv c' appends ∧ OnlyAssemblers c c' ∧
      c'.whichRa = (c.whichRa + rounds) % c.ras.length ∧
      ∀ a, (Idle c a ∨ ∃ j < rounds, a = (c.whichRa + j) % c.ras.length) → Idle c' a := by
  induction rounds generalizing c with
  | zero =>
    refine ⟨c, rfl, h, ⟨rfl, rfl, rfl, rfl⟩, (Nat.mod_eq_of_lt h.whichRa).symm, ?_⟩
    rintro a (hidle | ⟨j, hj, -⟩)
    · exact hidle
    · exact absurd hj (Nat.not_lt_zero j)
  | succ rounds ih =>
    obtain ⟨c₁, hcheck, h₁, hchecked⟩ := checkRequestAssemblers_inv h h.whichRa
    have hnext : BatchInv { c₁ with whichRa := (c₁.whichRa + 1) % c₁.ras.length } appends :=
      h₁.congr rfl rfl (Nat.mod_lt _ h₁.length_ras_pos) rfl
    obtain ⟨c₂, hrest, h₂, honly, hwhich, hidle⟩ := ih hnext
    dsimp only at hwhich hidle
    rw [hchecked.whichRa, hchecked.ras] at hwhich hidle
    refine ⟨c₂, ?_, h₂, ⟨?_, ?_, ?_, ?_⟩, ?_, ?_⟩
    · rw [MicaClient.checkRas, hcheck, ok_bind]
      exact hrest
    · exact honly.ras.trans hchecked.ras
    · exact honly.rds.trans hchecked.rds
    · exact honly.recycledRds.trans hchecked.recycledRds
    · exact honly.pendingWorkQueue.trans hchecked.pendingWorkQueue
    · rw [hwhich, Nat.mod_add_mod, Nat.add_assoc, Nat.add_comm 1]
    · intro a ha
      apply hidle
      by_cases hfirst : a = c.whichRa
      · left
        rw [hfirst]
        exact hchecked.empty
      · rcases ha with hold | ⟨j, hj, hj'⟩
        · left
          intro ra hra
          exact hold ra ((hchecked.others a hfirst).symm.trans hra)
        · right
          -- The first round visits `which_ra`, so the round for `a` is a later one.
          have hpos : j ≠ 0 := by
            rintro rfl
            rw [Nat.add_zero, Nat.mod_eq_of_lt h.whichRa] at hj'
            exact hfirst hj'
          refine ⟨j - 1, by omega, ?_⟩
          rw [hj', Nat.mod_add_mod]
          congr 1
          omega

end Calls

/-! ### One step -/

/-- The invariant of a run. The descriptors are appended in the order in which they were created, and
each of them once. -/
structure RunInv (b : Batches) : Prop where
  running : b.error = none
  batches : BatchInv b.client b.appends
  length : b.client.rds.length = totalRequestDescriptorCount
  idxs : b.appends.map (·.2) ++ b.client.recycledRds = List.range totalRequestDescriptorCount
  units : b.client.pendingWorkQueue.count = b.client.recycledRds.length

variable (hash : List UInt8 → BitVec 64)

/-- A query that gets a descriptor must fit into a packet. -/
def Fits (b : Batches) : Batches.Label → Prop
  | .query request =>
    b.client.pendingWorkQueue.mayProceed = true → Network.requestSize request ≤ maxReqLen
  | .tick => True

/-- When the queue lets a query proceed, there is a free descriptor that waits nowhere. -/
theorem exists_recycled {b : Batches} (h : RunInv b)
    (hproceed : b.client.pendingWorkQueue.mayProceed = true) :
    ∃ i rest d, b.client.recycledRds = i :: rest ∧ b.client.rds[i]? = some d ∧
      i ∉ b.appends.map (·.2) := by
  rw [Semaphore.mayProceed, Bool.and_eq_true] at hproceed
  have hpos : 0 < b.client.recycledRds.length := by
    rw [← h.units]
    exact of_decide_eq_true hproceed.1
  obtain ⟨i, rest, hrecycled⟩ := List.exists_cons_of_length_pos hpos
  have hidxs := h.idxs
  rw [hrecycled] at hidxs
  have hi : i < b.client.rds.length := by
    rw [h.length, ← List.mem_range, ← hidxs]
    simp
  refine ⟨i, rest, _, hrecycled, List.getElem?_eq_getElem hi, ?_⟩
  have hnodup : (b.appends.map (·.2) ++ i :: rest).Nodup := hidxs ▸ List.nodup_range
  intro hmem
  exact (List.nodup_append.mp hnodup).2.2 i hmem i List.mem_cons_self rfl

/-- What a query that gets a descriptor does before the request goes to its assembler. -/
def prepare (c : MicaClient) (i : Nat) (d : RequestDescriptor Nat) (request : Request) :
    MicaClient :=
  { c with
      queryCount := c.queryCount + 1
      pendingWorkQueue := { c.pendingWorkQueue with count := c.pendingWorkQueue.count - 1 }
      recycledRds := c.recycledRds.tail
      rds := c.rds.set i (d.newAction hash request) }

/-- A query that may proceed takes the first free descriptor. -/
theorem query_proceeds {c : MicaClient} (hproceed : c.pendingWorkQueue.mayProceed = true) {i : Nat}
    {rest : List Nat} {d : RequestDescriptor Nat} (hrecycled : c.recycledRds = i :: rest)
    (hd : c.rds[i]? = some d) (request : Request) :
    c.query hash request =
      (prepare hash c i d request).sendRequestDescriptor i >>= fun c' =>
        getRd c'.rds i >>= fun d => .ok (c'.setRd i (d.obtainFuture c.queryCount)) := by
  rw [MicaClient.query]
  dsimp only
  rw [if_pos hproceed, MicaClient.startQuery, hrecycled]
  dsimp only
  rw [getRd_eq_ok hd, ok_bind, prepare, hrecycled]
  rfl

/-- Preparing a descriptor that waits nowhere keeps the invariant of the batches. -/
theorem batchInv_prepare {c : MicaClient} {appends : List (Nat × Nat)} (h : BatchInv c appends)
    {i : Nat} {d : RequestDescriptor Nat} (hd : c.rds[i]? = some d)
    (hnew : i ∉ appends.map (·.2)) (request : Request) :
    BatchInv (prepare hash c i d request) appends := by
  have hset : BatchInv (c.setRd i (d.newAction hash request)) appends :=
    h.setRd hd rfl fun hmem => absurd hmem hnew
  exact hset.congr rfl rfl h.whichRa rfl

/-- A query that gets a descriptor, and fits into a packet. -/
theorem step_query {b : Batches} (h : RunInv b) {request : Request}
    (hproceed : b.client.pendingWorkQueue.mayProceed = true)
    (hfit : Network.requestSize request ≤ maxReqLen) :
    RunInv (b.advance (nextRd b.client) (b.client.query hash request)) := by
  obtain ⟨i, rest, d, hrecycled, hd, hnew⟩ := exists_recycled h hproceed
  have hlt := (List.getElem?_eq_some_iff.mp hd).1
  have hnext : nextRd b.client = [i] := by
    rw [nextRd, if_pos hproceed, hrecycled]
    rfl
  have hprepared := batchInv_prepare hash h.batches hd hnew request
  have hd₁ : (prepare hash b.client i d request).rds[i]? = some (d.newAction hash request) :=
    List.getElem?_set_self hlt
  have hsize : (d.newAction hash request).requestSize =
      (d.newAction hash request).appendFrags.length := by
    show requestHeaderSize + request.key.length + request.val.length = _
    rw [RequestDescriptor.appendFrags, List.length_append, List.length_append, length_toBytes]
    rfl
  obtain ⟨c₂, hcall, h₂, hd₂, honly⟩ :=
    sendRequestDescriptor_fits hprepared hd₁ hnew hsize hfit
  have hresult : b.client.query hash request =
      .ok (c₂.setRd i ((d.newAction hash request).obtainFuture b.client.queryCount)) := by
    rw [query_proceeds hash hproceed hrecycled hd, hcall, ok_bind, getRd_eq_ok hd₂, ok_bind]
  -- Neither the assemblers nor `obtain_future` change the partition of the request.
  have hassembler : assemblerOf
      (c₂.setRd i ((d.newAction hash request).obtainFuture b.client.queryCount)) i =
        assemblerOf (prepare hash b.client i d request) i := by
    have hset : (c₂.setRd i
        ((d.newAction hash request).obtainFuture b.client.queryCount)).rds[i]? =
          some ((d.newAction hash request).obtainFuture b.client.queryCount) :=
      List.getElem?_set_self (List.getElem?_eq_some_iff.mp hd₂).1
    rw [assemblerOf_eq hset, assemblerOf_eq hd₁]
    show calcPartitionId _ c₂.ras.length = calcPartitionId _ _
    rw [honly.ras]
    rfl
  have hfuture : BatchInv
      (c₂.setRd i ((d.newAction hash request).obtainFuture b.client.queryCount)) _ :=
    h₂.setRd hd₂ rfl fun _ => ⟨rfl, rfl, rfl, rfl⟩
  rw [hresult, hnext, Batches.advance, List.map_singleton, hassembler]
  refine ⟨rfl, hfuture, ?_, ?_, ?_⟩
  · show (c₂.rds.set i _).length = _
    rw [List.length_set, honly.rds]
    show (b.client.rds.set i _).length = _
    rw [List.length_set, h.length]
  · have hidxs := h.idxs
    rw [hrecycled] at hidxs
    show (b.appends ++ [(_, i)]).map Prod.snd ++ c₂.recycledRds = _
    rw [honly.recycledRds, ← hidxs, List.map_append]
    show _ ++ b.client.recycledRds.tail = _
    rw [hrecycled, List.append_assoc]
    rfl
  · have hunits := h.units
    rw [hrecycled, List.length_cons] at hunits
    show c₂.pendingWorkQueue.count = c₂.recycledRds.length
    rw [honly.recycledRds, honly.pendingWorkQueue]
    show b.client.pendingWorkQueue.count - 1 = b.client.recycledRds.tail.length
    rw [hrecycled, hunits]
    rfl

/-- A query that gets a descriptor, and fits into no packet. -/
theorem query_diverges {b : Batches} (h : RunInv b) {request : Request}
    (hproceed : b.client.pendingWorkQueue.mayProceed = true)
    (hlong : maxReqLen < Network.requestSize request) :
    b.client.query hash request = .error .diverges := by
  obtain ⟨i, rest, d, hrecycled, hd, hnew⟩ := exists_recycled h hproceed
  have hlt := (List.getElem?_eq_some_iff.mp hd).1
  have hd₁ : (prepare hash b.client i d request).rds[i]? = some (d.newAction hash request) :=
    List.getElem?_set_self hlt
  rw [query_proceeds hash hproceed hrecycled hd,
    sendRequestDescriptor_diverges (batchInv_prepare hash h.batches hd hnew request) hd₁ hlong]
  rfl

/-- A query that waits. -/
theorem step_query_waits {b : Batches} (h : RunInv b) {request : Request}
    (hwait : ¬b.client.pendingWorkQueue.mayProceed = true) :
    RunInv (b.advance (nextRd b.client) (b.client.query hash request)) := by
  have hnext : nextRd b.client = [] := by rw [nextRd, if_neg hwait]
  rw [MicaClient.query, hnext]
  dsimp only
  rw [if_neg hwait, Batches.advance, List.map_nil, List.append_nil]
  exact ⟨rfl, h.batches.congr rfl rfl h.batches.whichRa rfl, h.length, h.idxs, h.units⟩

/-- A tick. It leaves the assemblers that it visits without work. -/
theorem step_tick {b : Batches} (h : RunInv b) :
    RunInv (b.advance [] (b.client.checkRas 5)) ∧
      (b.advance [] (b.client.checkRas 5)).appends = b.appends ∧
      (b.advance [] (b.client.checkRas 5)).client.ras.length = b.client.ras.length ∧
      (b.advance [] (b.client.checkRas 5)).client.whichRa =
        (b.client.whichRa + 5) % b.client.ras.length ∧
      ∀ a, (Idle b.client a ∨ ∃ j < 5, a = (b.client.whichRa + j) % b.client.ras.length) →
        Idle (b.advance [] (b.client.checkRas 5)).client a := by
  obtain ⟨c', hcheck, h', honly, hwhich, hidle⟩ := checkRas_inv 5 h.batches
  rw [hcheck, Batches.advance, List.map_nil, List.append_nil]
  refine ⟨⟨rfl, h', ?_, ?_, ?_⟩, rfl, honly.ras, hwhich, hidle⟩
  · exact honly.rds.trans h.length
  · rw [honly.recycledRds]
    exact h.idxs
  · rw [honly.recycledRds, honly.pendingWorkQueue]
    exact h.units

/-! ### Runs -/

/-- A packet with these requests, whatever packets its assembler has sent before: it carries a request,
it is not longer than a frame, and its header tells the truth. -/
def PacketOk (requests : List SentRequest) : Prop :=
  requests ≠ [] ∧ ∀ remoteEi localEi earlier,
    let p := BatchHeader.requestPacket (BatchHeader.headerAfter remoteEi localEi earlier) requests
    p.length ≤ 1518 - 4 ∧ (BatchHeader.numRequests p).toNat = requests.length ∧
      BatchHeader.ipLen p = p.length - BatchHeader.ethHdrSize ∧
      BatchHeader.udpLen p = p.length - BatchHeader.ethHdrSize - BatchHeader.ipHdrSize

/-- What a client should look like between two calls. -/
structure BatchesOk (b : Batches) : Prop where
  running : b.error = none
  room : ∀ ra ∈ b.client.ras, ra.remainingSize + batchSize b.client.rds ra.rdIdxs = maxReqLen
  packets : ∀ requests ∈ packets b.client, PacketOk requests
  order : ∀ (a : Nat) (ra : RequestAssembler), b.client.ras[a]? = some ra →
    sentBy b.client a ++ ra.rdIdxs ++ ra.sendStream = b.appendedTo a

/-- A packet has at most 61 requests, since each of them has a header. -/
theorem length_le_of_packetFits {requests : List SentRequest} (h : PacketFits requests) :
    requests.length ≤ 61 := by
  have hsum : ∀ rs : List SentRequest, (∀ r ∈ rs, requestHeaderSize ≤ r.frags.length) →
      rs.length * requestHeaderSize ≤ (rs.map (·.frags.length)).sum := by
    intro rs hrs
    induction rs with
    | nil => exact Nat.le_of_eq (Nat.zero_mul _)
    | cons r rs ih =>
      obtain ⟨hr, hrs⟩ := List.forall_mem_cons.mp hrs
      have := ih hrs
      rw [List.length_cons, List.map_cons, List.sum_cons, Nat.add_mul, Nat.one_mul]
      omega
  have hall := hsum requests h.2.2
  have hmax := h.2.1
  simp only [requestHeaderSize, maxReqLen, requestBatchHeaderSize] at hall hmax
  omega

/-- A packet that fits the batch is sent right. -/
theorem packetOk_of_fits {requests : List SentRequest} (h : PacketFits requests) :
    PacketOk requests := by
  refine ⟨h.1, fun remoteEi localEi earlier => ?_⟩
  have hok := headerOk_headerAfter remoteEi localEi earlier
  have hcount := length_le_of_packetFits h
  have hlen := length_requestPacket hok requests
  obtain ⟨hip, hudp, hnum⟩ := fields_requestPacket hok requests
  have hbody : (requests.map (·.frags)).flatten.length ≤ maxReqLen := by
    rw [List.length_flatten, List.map_map]
    exact h.2.1
  have hmax : maxReqLen = 1466 := rfl
  dsimp only
  generalize BatchHeader.requestPacket (BatchHeader.headerAfter remoteEi localEi earlier) requests = p
    at *
  have hlong : 48 ≤ p.length := by omega
  have hiplen : BatchHeader.ipLen p = be16 p 16 :=
    hton_loadPacked (p := p) (i := 16) (by omega)
  have hudplen : BatchHeader.udpLen p = be16 p 38 :=
    hton_loadPacked (p := p) (i := 38) (by omega)
  refine ⟨by omega, ?_, ?_, ?_⟩
  · rw [hnum]
    exact UInt8.toNat_ofNat'.trans (Nat.mod_eq_of_lt (by omega))
  · rw [hiplen, hip, show BatchHeader.ethHdrSize = 14 from rfl]
    omega
  · rw [hudplen, hudp, show BatchHeader.ethHdrSize = 14 from rfl,
      show BatchHeader.ipHdrSize = 20 from rfl]
    omega

/-- The invariant of the runs says that the batches are right. -/
theorem RunInv.ok {b : Batches} (h : RunInv b) : BatchesOk b where
  running := h.running
  room := by
    intro ra hra
    obtain ⟨a, ha⟩ := List.mem_iff_getElem?.mp hra
    exact (h.batches.assembler a ra ha).room
  packets := fun requests hmem => packetOk_of_fits (h.batches.fits requests hmem)
  order := by
    intro a ra hra
    have hinv := h.batches.assembler a ra hra
    rw [hinv.stream, List.append_nil, hinv.order]
    rfl

/-- A new client meets the invariant of the runs. -/
theorem runInv_create {smpCount : Nat} (hsmp : 0 < smpCount) (rqHd : Nat → RequestHeader) :
    RunInv (Batches.create smpCount rqHd) := by
  have hrds : (Batches.create smpCount rqHd).client.rds =
      (List.range totalRequestDescriptorCount).map fun i => .create i (rqHd i) := by
    rw [Batches.create, MicaClient.bootup]
  have hras : (Batches.create smpCount rqHd).client.ras = List.replicate smpCount .create := by
    rw [Batches.create, MicaClient.bootup]
  have hrecycled : (Batches.create smpCount rqHd).client.recycledRds =
      List.range totalRequestDescriptorCount := by
    rw [Batches.create, MicaClient.bootup]
  constructor
  · rfl
  · constructor
    · rw [hras, List.length_replicate]
      exact hsmp
    · exact List.nodup_nil
    · intro i d hd _
      rw [hrds, List.getElem?_map] at hd
      obtain ⟨j, -, rfl⟩ := Option.map_eq_some_iff.mp hd
      rfl
    · intro a ra hra
      rw [hras] at hra
      rw [(List.mem_replicate.mp (List.mem_of_getElem? hra)).2]
      exact ⟨rfl, rfl, nofun, rfl⟩
    · exact nofun
  · rw [hrds, List.length_map, List.length_range]
  · rw [hrecycled]
    exact List.nil_append _
  · rw [hrecycled, List.length_range]
    rfl

/-- A step keeps the invariant if the query fits. -/
theorem runInv_step {b b' : Batches} {l : Batches.Label} (h : RunInv b) (hfits : Fits b l)
    (hstep : b.step hash l = some b') : RunInv b' := by
  cases l with
  | query request =>
    rw [Batches.step, h.running] at hstep
    cases hstep
    by_cases hproceed : b.client.pendingWorkQueue.mayProceed = true
    · exact step_query hash h hproceed (hfits hproceed)
    · exact step_query_waits hash h hproceed
  | tick =>
    rw [Batches.step, h.running] at hstep
    cases hstep
    exact (step_tick h).1

/-- A step with a query that does not fit is the last one. -/
theorem fits_of_step {b b' : Batches} {l : Batches.Label} (h : RunInv b)
    (hstep : b.step hash l = some b') (hok : BatchesOk b') : Fits b l := by
  cases l with
  | query request =>
    rw [Batches.step, h.running] at hstep
    cases hstep
    intro hproceed
    by_contra hlong
    have hrunning := hok.running
    rw [query_diverges hash h hproceed (Nat.not_le.mp hlong)] at hrunning
    cases hrunning
  | tick => exact trivial

/-- Ticks send all that was appended: `5` assemblers with each of them, in turn. -/
theorem run_ticks (k : Nat) {b : Batches} (h : RunInv b) :
    ∃ b', Lib.run (Batches.step hash) b (List.replicate k .tick) = some b' ∧ RunInv b' ∧
      b'.appends = b.appends ∧ b'.client.ras.length = b.client.ras.length ∧
      ∀ a, (Idle b.client a ∨
        ∃ j < 5 * k, a = (b.client.whichRa + j) % b.client.ras.length) → Idle b'.client a := by
  induction k generalizing b with
  | zero =>
    refine ⟨b, rfl, h, rfl, rfl, ?_⟩
    rintro a (hidle | ⟨j, hj, -⟩)
    · exact hidle
    · exact absurd hj (Nat.not_lt_zero j)
  | succ k ih =>
    obtain ⟨h₁, happends, hlen, hwhich, hidle⟩ := step_tick h
    have hstep : b.step hash .tick = some (b.advance [] (b.client.checkRas 5)) := by
      rw [Batches.step, h.running]
      rfl
    generalize b.advance [] (b.client.checkRas 5) = b₁ at *
    obtain ⟨b₂, hrun, h₂, happends', hlen', hidle'⟩ := ih h₁
    refine ⟨b₂, ?_, h₂, happends'.trans happends, hlen'.trans hlen, ?_⟩
    · rw [List.replicate_succ]
      exact Lib.run_cons.mpr ⟨b₁, hstep, hrun⟩
    · intro a ha
      apply hidle'
      rcases ha with hold | ⟨j, hj, hj'⟩
      · exact .inl (hidle a (.inl hold))
      · by_cases hnow : j < 5
        · exact .inl (hidle a (.inr ⟨j, hnow, hj'⟩))
        · refine .inr ⟨j - 5, by omega, ?_⟩
          rw [hwhich, hlen, Nat.mod_add_mod, hj']
          congr 1
          omega

/-- After as many ticks as there are assemblers, all that was appended was sent. -/
theorem all_sent {b : Batches} (h : RunInv b) :
    ∃ b', Lib.run (Batches.step hash) b (List.replicate b.client.ras.length .tick) = some b' ∧
      ∀ a < b.client.ras.length, sentBy b'.client a = b.appendedTo a := by
  obtain ⟨b', hrun, h', happends, hlen, hidle⟩ := run_ticks hash b.client.ras.length h
  refine ⟨b', hrun, fun a ha => ?_⟩
  have hra := List.getElem?_eq_getElem (hlen.symm ▸ ha : a < b'.client.ras.length)
  have hinv := h'.batches.assembler a _ hra
  have hwhich := h.batches.whichRa
  have hempty := hidle a (.inr ⟨(a + b.client.ras.length - b.client.whichRa) % b.client.ras.length,
    ?_, ?_⟩) _ hra
  · have horder := hinv.order
    rw [hempty, List.append_nil] at horder
    rw [horder, happends]
    rfl
  · have := Nat.mod_lt (a + b.client.ras.length - b.client.whichRa) h.batches.length_ras_pos
    omega
  · rw [Nat.add_mod_mod, Nat.add_sub_cancel' (by omega), Nat.add_mod_right, Nat.mod_eq_of_lt ha]

/-- The loop of `consume_send_stream` ends if and only if its model does not say that it diverges. In
a run of queries and ticks, the loop ends, and what the assemblers hold and send is right, in every
state if and only if each query that gets a descriptor fits into a packet. And after such a run,
enough ticks send all that was appended. -/
theorem batches_correct_iff :
    (∀ ra rds, (∃ n, consumeRounds n ra rds ≠ .ok none) ↔
      ra.consumeSendStream rds ≠ .error .diverges) ∧
    ∀ (smpCount : Nat) (rqHd : Nat → RequestHeader) (ls : List Batches.Label), 0 < smpCount →
      (Lib.Always (Batches.step hash) BatchesOk (.create smpCount rqHd) ls ↔
        Lib.Guarded (Batches.step hash) Fits (.create smpCount rqHd) ls) ∧
      (Lib.Guarded (Batches.step hash) Fits (.create smpCount rqHd) ls →
        ∀ b, Lib.run (Batches.step hash) (.create smpCount rqHd) ls = some b →
          ∃ b', Lib.run (Batches.step hash) b (List.replicate b.client.ras.length .tick) = some b' ∧
            ∀ a < b.client.ras.length, sentBy b'.client a = b.appendedTo a) := by
  refine ⟨consumeSendStream_terminates_iff, ?_⟩
  intro smpCount rqHd ls hsmp
  have hstart := runInv_create hsmp rqHd
  constructor
  · exact Lib.always_iff_guarded_of_inv RunInv (fun _ h => h.ok)
      (fun _ _ _ h hfits hstep => runInv_step hash h hfits hstep)
      (fun _ _ _ h hstep hok => fits_of_step hash h hstep hok) hstart ls
  · intro hguarded b hb
    have hinv : Lib.Always (Batches.step hash) RunInv (.create smpCount rqHd) ls :=
      Lib.always_of_guarded RunInv (fun _ h => h)
        (fun _ _ _ h hfits hstep => runInv_step hash h hfits hstep) hstart hguarded
    exact all_sent hash (hinv.last hb)

/-- A query that fits, and a tick. -/
theorem batches_correct_small :
    Lib.Always (Batches.step fun _ => 0) BatchesOk (.create 1 fun _ => ⟨0, 0, 0, 0, 0, 0, 0⟩)
      [.query ⟨.kGet, 8, List.replicate 8 1, 0, []⟩, .tick] := by
  apply ((batches_correct_iff fun _ => 0).2 1 _ _ (by decide)).1.mpr
  exact Lib.guarded_of_forall (by
    intro l hl b
    rcases List.mem_pair.mp hl with rfl | rfl
    · exact fun _ => (by decide : 32 ≤ maxReqLen)
    · exact trivial) _

/-- A value of 1472 bytes, which the length field of a record could describe. -/
def longRequest : Request := ⟨.kSet, 8, List.replicate 8 1, 1472, List.replicate 1472 1⟩

/-- The first query does not return. -/
theorem not_batches_correct_long :
    ¬Lib.Always (Batches.step fun _ => 0) BatchesOk
      (.create 1 fun _ => ⟨0, 0, 0, 0, 0, 0, 0⟩) [.query longRequest] := by
  intro h
  have hstart := runInv_create (by decide : 0 < 1) fun _ => ⟨0, 0, 0, 0, 0, 0, 0⟩
  have hlong : maxReqLen < Network.requestSize longRequest := by
    rw [Network.requestSize, longRequest, List.length_replicate, List.length_replicate]
    decide
  have hstep : ∃ b', Batches.step (fun _ => 0)
      (.create 1 fun _ => ⟨0, 0, 0, 0, 0, 0, 0⟩) (.query longRequest) = some b' := by
    rw [Batches.step, hstart.running]
    exact ⟨_, rfl⟩
  obtain ⟨b', hb'⟩ := hstep
  have hfits := fits_of_step _ hstart hb' (h.2 b' hb').head
  have hproceed : (Batches.create 1 fun _ =>
      ⟨0, 0, 0, 0, 0, 0, 0⟩).client.pendingWorkQueue.mayProceed = true := by
    rw [Batches.create, MicaClient.bootup]
    decide
  exact absurd (hfits hproceed) (Nat.not_le.mpr hlong)

end Netstar.Proofs.Mica
