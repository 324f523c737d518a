import Netstar.Proofs.Net.TcbCwnd
import Netstar.Proofs.Net.TcpMerger
import Netstar.Spec.Net.TcpReceived

/-!
# `Netstar.Proofs.Net.TcpReceived`: what a received segment makes TCP read and trim

`tcp::received` checks that the packet holds the fixed header and that the data offset is at least 20
bytes. None of the three handlers compares the data offset with the length of the packet before it goes
through the header and trims it. Behind this trim nothing can go wrong: the handlers trim a segment only
by the difference of two sequence numbers, and the comparison in front of each such trim says that the
difference is at most the length of the segment. This holds in every state of the connection, so no
invariant is needed.

The option walker compares `beg + len` with the end of the area, where `len` comes from the wire. The
values of the options it knows have fixed lengths, which nothing compares with the end, and the length
byte itself is read in front of the comparison. `optionsFit` says for the bytes of an option area that
no read leaves it and that the last window scale is at most 14.
-/

set_option autoImplicit false

namespace Netstar.Proofs.Net

open Netstar.Lib
open Netstar.Spec.Net

/-! ### Trims between two sequence numbers -/

/-- A number that lies between the start of a segment and its end is at most the length of the segment
behind the start. -/
theorem distance_between {a b : TcpSeq} {n : Nat} (hstart : a.le b = true)
    (hend : b.le (a.add n) = true ∨ b.lt (a.add n) = true) : 0 ≤ b.sub a ∧ b.sub a ≤ n := by
  have hpos : 0 ≤ b.sub a := by
    simpa [TcpSeq.le, TcpSeq.lt] using hstart
  refine ⟨hpos, ?_⟩
  by_contra hlong
  have hb : b = wrap a.raw (b.sub a) := by
    have hraw : a.raw + (b.raw - a.raw) = b.raw := by bv_omega
    rw [wrap, TcpSeq.sub, BitVec.ofInt_toInt, hraw]
  have hlt : b.sub a < 2 ^ 31 := BitVec.toInt_lt
  have hdist : (a.add n).sub b = n - b.sub a := by
    rw [hb]
    have h := sub_wrap a.raw n (b.sub a) (by omega) (by omega)
    rw [← hb] at h ⊢
    exact h
  have hdist' : b.sub (a.add n) = b.sub a - n := by
    have h := sub_wrap a.raw (b.sub a) n (by omega) (by omega)
    rw [← hb] at h
    exact h
  rcases hend with hle | hltEnd
  · simp only [TcpSeq.le, TcpSeq.lt, hdist, Bool.not_eq_true', decide_eq_false_iff_not] at hle
    omega
  · simp only [TcpSeq.lt, hdist', decide_eq_true_eq] at hltEnd
    omega

/-- The merger can still abort. -/
def OnlyAborts (e : MergeError) : Prop := e = .abort

/-- Trimming within the packet does not read outside. -/
theorem trimFront_sat {p : Packet} {k : Int} (h : 0 ≤ k ∧ k ≤ p.length) :
    Sat OnlyAborts (fun _ => True) (trimFront p k) := by
  rw [trimFront_ok p k h.1 h.2]
  exact trivial

/-- The first loop of `merge` over sequence numbers, on any map. -/
theorem firstLoop_sat (beg : TcpSeq) (p : Packet) (m : SegMap TcpSeq) :
    Sat OnlyAborts (fun _ => True) (firstLoop beg p m) := by
  induction m with
  | nil => exact trivial
  | cons e rest ih =>
    obtain ⟨segBeg, segPkt⟩ := e
    simp only [firstLoop]
    split
    · exact trivial
    · split
      · exact trivial
      · split
        · rename_i hcase
          simp only [Bool.and_eq_true] at hcase
          exact (trimFront_sat (distance_between hcase.1.2 (.inl hcase.2))).bind fun _ _ => trivial
        · split
          · rename_i hcase
            simp only [Bool.and_eq_true] at hcase
            exact (trimFront_sat (distance_between hcase.1.2 (.inr hcase.2))).bind fun _ _ => trivial
          · exact Sat.map (ih.mono fun _ _ => trivial)

/-- The second loop of the merger does not read outside. -/
theorem secondLoop_sat (rest : SegMap TcpSeq) (seg : TcpSeq × Packet) :
    Sat OnlyAborts (fun _ => True) (secondLoop seg rest) := by
  induction rest generalizing seg with
  | nil => exact trivial
  | cons e rest ih =>
    obtain ⟨beg, p⟩ := e
    simp only [secondLoop]
    split
    · rename_i hcase
      simp only [Bool.and_eq_true] at hcase
      exact (trimFront_sat (distance_between hcase.1.2 (.inr hcase.2))).bind fun _ _ => ih _
    · split
      · exact ih seg
      · split
        · exact Sat.map ((ih (beg, p)).mono fun _ _ => trivial)
        · exact rfl

/-- `merge` over sequence numbers never trims more than a packet holds. -/
theorem merge_sat (m : SegMap TcpSeq) (offset : TcpSeq) (p : Packet) :
    Sat OnlyAborts (fun _ => True) (merge m offset p) := by
  have hadjacent (m : SegMap TcpSeq) : Sat OnlyAborts (fun _ => True) (mergeAdjacent m) := by
    cases m with
    | nil => exact trivial
    | cons e rest => exact secondLoop_sat rest e
  refine (firstLoop_sat offset p m).bind fun r _ => ?_
  cases r with
  | covered => exact trivial
  | insert m' p' => exact hadjacent _
  | extended m' => exact hadjacent _

/-- Merging what came out of order does not read outside. -/
theorem mergeOutOfOrderLoop_sat (m : SegMap TcpSeq) (next : TcpSeq) (data : List Packet)
    (merged : Bool) : Sat OnlyAborts (fun _ => True)
      (Receive.mergeOutOfOrderLoop next data merged m) := by
  induction m generalizing next data merged with
  | nil => exact trivial
  | cons e rest ih =>
    obtain ⟨segBeg, p⟩ := e
    simp only [Receive.mergeOutOfOrderLoop]
    split
    · rename_i hcase
      simp only [Bool.and_eq_true] at hcase
      have htrim := distance_between hcase.1 (.inr hcase.2)
      refine Sat.bind (P := fun _ => True) ?_ fun _ _ => ih _ _ _
      split
      · exact trimFront_sat htrim
      · exact trivial
    · split
      · exact ih _ _ _
      · exact trivial

/-! ### The handlers -/

/-- The fault is neither a header outside of the packet nor a trim by more than the packet holds. -/
def InsidePacket (f : TcbFault) : Prop := f ≠ .nullHeader ∧ f ≠ .merger .trimAssert

/-- An abort of the merger is no access outside. -/
theorem insidePacket_merger {e : MergeError} (h : OnlyAborts e) : InsidePacket (.merger e) := by
  rw [h]
  exact ⟨(fun h => nomatch h), (fun h => nomatch h)⟩

section
variable {s : Tcb} {tso : Bool}

/-- Sending one segment reads nothing outside. -/
theorem outputOne_inside (s : Tcb) (tso r : Bool) :
    Sat InsidePacket (fun _ => True) (s.outputOne tso r) := by
  unfold Tcb.outputOne
  split
  · exact trivial
  · refine Sat.bind (P := fun _ => True) ?_ fun ⟨p, snd⟩ _ => ?_
    · cases r with
      | true =>
        unfold Tcb.takePayload
        rw [if_pos rfl]
        split
        · exact ⟨(fun h => nomatch h), (fun h => nomatch h)⟩
        · exact trivial
      | false => exact trivial
    · show Sat InsidePacket _ (Tcb.emit r p { s with snd := snd })
      refine Sat.of_cases (fun f hf => ?_) fun _ _ => trivial
      rw [(emit_error.mp hf).1]
      exact ⟨(fun h => nomatch h), (fun h => nomatch h)⟩

/-- A fast retransmission reads nothing outside. -/
theorem fastRetransmit_inside (s : Tcb) (tso : Bool) :
    Sat InsidePacket (fun _ => True) (s.fastRetransmit tso) := by
  unfold Tcb.fastRetransmit
  split
  · exact trivial
  · exact (outputOne_inside _ tso true).bind fun _ _ => trivial

/-- Growing the window reads nothing outside and changes the window only. -/
theorem updateCwnd_inside (s : Send) (n : BitVec 32) :
    Sat InsidePacket (fun t => ∃ c, t = { s with cwnd := c }) (s.updateCwnd n) := by
  simp only [Send.updateCwnd]
  split
  · exact ⟨_, rfl⟩
  · split
    · exact ⟨(fun h => by cases h), (fun h => by cases h)⟩
    · exact ⟨_, rfl⟩

/-- Removing acknowledged segments reads nothing outside, and the first segment left is open. -/
theorem ackSegments_inside (segAck : TcpSeq) (data : List UnackedSegment) (acked : BitVec 32)
    (s : Send) :
    Sat InsidePacket (fun x => FirstOpen segAck x.2) (Send.ackSegments segAck data acked s) := by
  induction data generalizing acked s with
  | nil => exact fun seg rest h => by cases h
  | cons seg rest ih =>
    simp only [Send.ackSegments]
    split
    · refine (updateCwnd_inside _ _).bind fun t _ => ?_
      exact ih _ _
    · rename_i hopen
      intro seg' rest' heq
      cases heq
      exact Bool.not_eq_true _ |>.mp hopen

/-- A partial acknowledgment trims the first segment by less than its length. -/
theorem ackPartial_inside {segAck : TcpSeq} {acked : BitVec 32} {s : Send} (h : FirstOpen segAck s)
    (hfits : ∀ seg ∈ s.data, Fits seg) :
    Sat InsidePacket (fun _ => True) (s.ackPartial segAck acked) := by
  simp only [Send.ackPartial]
  split
  · rename_i hnew
    refine Sat.bind (P := fun _ => True) ?_ fun data _ => ?_
    · cases hdata : s.data with
      | nil => exact trivial
      | cons seg rest =>
        have hopen := h seg rest hdata
        have hseg := hfits seg (by simp [hdata])
        have hlt := hseg.lt
        have hpos := hseg.1
        -- The number is `a` bytes ahead, and the segment does not end there.
        obtain ⟨a, ha, hfar, rfl⟩ := ahead_of_lt hnew
        have hcmp : (s.unacknowledged.add seg.p.length).le (s.unacknowledged.add a)
            = decide (seg.p.length ≤ a) := by
          rw [add_eq_wrap, add_eq_wrap, le_wrap _ _ _ (by omega) (by omega)]
          exact decide_eq_decide.mpr (by omega)
        have hshort : a < seg.p.length := by
          rw [hcmp] at hopen
          exact Nat.lt_of_not_le (of_decide_eq_false hopen)
        have hsub : (s.unacknowledged.add a).sub s.unacknowledged = a := by
          have hdiff := sub_wrap s.unacknowledged.raw a 0 (by omega) (by omega)
          rw [← add_eq_wrap, ← add_eq_wrap, add_zero] at hdiff
          rw [hdiff, Int.sub_zero]
        rw [hsub]
        have htrim := trimFront_sat (p := seg.p) (k := a) ⟨by omega, by omega⟩
        exact (htrim.mapError_of fun _ => insidePacket_merger).bind fun _ _ => trivial
    · exact (updateCwnd_inside _ _).bind fun _ _ => trivial
  · exact trivial

/-- `data_segment_acked` reads nothing outside. -/
theorem dataSegmentAcked_inside {segAck : TcpSeq} {s : Send} (hsized : Sized s.unsent)
    (hfits : ∀ seg ∈ s.data, Fits seg) :
    Sat InsidePacket (fun _ => True) (s.dataSegmentAcked segAck) := by
  refine (ackSegments_inside segAck s.data 0 s).bind_result fun ⟨n, t⟩ hok => ?_
  obtain ⟨hkeeps, hopen⟩ := sendKeeps_ackSegments s.data (fun _ hseg => hseg) hok
  exact ackPartial_inside hopen (hkeeps.fits hsized hfits)

/-- Recovering from a loss reads nothing outside. -/
theorem recoverFromAck_inside (segAck : TcpSeq) (acked : BitVec 32) (s : Tcb) :
    Sat InsidePacket (fun _ => True) (s.recoverFromAck tso segAck acked) := by
  simp only [Tcb.recoverFromAck]
  split
  · exact trivial
  · split
    · exact trivial
    · exact (fastRetransmit_inside s tso).bind fun _ _ => trivial

/-- An acknowledgment in ESTABLISHED reads nothing outside. -/
theorem ackEstablished_inside {th : TcbHdr} {segSeq : TcpSeq} {p : Packet}
    (hsized : Sized s.snd.unsent) (hfits : ∀ seg ∈ s.snd.data, Fits seg) :
    Sat InsidePacket (fun _ => True) (s.ackEstablished tso th segSeq p) := by
  unfold Tcb.ackEstablished
  split
  · refine Sat.bind (P := fun _ => True) ?_ fun _ _ => trivial
    exact (dataSegmentAcked_inside hsized hfits).bind fun _ _ => recoverFromAck_inside _ _ _
  · split
    · refine Sat.bind (P := fun _ => True) ?_ fun _ _ => trivial
      simp only [Tcb.duplicateAck]
      split
      · exact trivial
      · split
        · refine Sat.bind (P := fun _ => True) ?_ fun _ _ => trivial
          split
          · exact fastRetransmit_inside _ tso
          · exact trivial
        · split
          · exact trivial
          · exact trivial
    · split
      · exact trivial
      · split
        · exact trivial
        · exact trivial

/-- The text and the FIN of a segment read nothing outside. -/
theorem textAndFin_inside {th : TcbHdr} {segSeq : TcpSeq} {p : Packet} {d : Bool} :
    Sat InsidePacket (fun _ => True) (s.textAndFin th segSeq p d) := by
  unfold Tcb.textAndFin
  split
  · exact trivial
  · refine Sat.bind (P := fun _ => True) ?_ fun _ _ => trivial
    split
    · unfold Tcb.takeText
      split
      · have hmerge (r : Receive) :
            Sat OnlyAborts (fun _ => True) r.mergeOutOfOrder :=
          (mergeOutOfOrderLoop_sat _ _ _ _).bind fun _ _ => trivial
        exact ((hmerge _).mapError_of fun _ => insidePacket_merger).bind fun _ _ => trivial
      · exact trivial
    · exact trivial

/-- A segment behind the handshake reads nothing outside. -/
theorem handleSynchronized_inside {th : TcbHdr} {segSeq : TcpSeq} {p : Packet}
    (hsized : Sized s.snd.unsent) (hfits : ∀ seg ∈ s.snd.data, Fits seg) :
    Sat InsidePacket (fun _ => True) (s.handleSynchronized tso th segSeq p) := by
  refine Sat.bind (P := fun _ => True) ?_ fun flow _ => ?_
  · split
    · exact ackEstablished_inside hsized hfits
    · exact trivial
  · cases flow with
    | ret t => exact trivial
    | go t d =>
      dsimp only
      split
      · exact trivial
      · exact textAndFin_inside

/-- Behind the first trim, a segment in a synchronized state trims nothing too far. -/
theorem inputHandleOtherState_inside {th : TcbHdr} {p : Packet} (hsized : Sized s.snd.unsent)
    (hfits : ∀ seg ∈ s.snd.data, Fits seg) (hlen : th.dataOffset * 4 ≤ p.length) :
    Sat InsidePacket (fun _ => True) (s.inputHandleOtherState tso th p) := by
  have htrim := trimFront_sat (p := p) (k := (th.dataOffset * 4 : Nat)) ⟨by omega, by omega⟩
  refine Sat.bind (htrim.mapError_of fun _ => insidePacket_merger) fun q _ => ?_
  split
  · dsimp only
    split
    · unfold Tcb.handleInOrder
      split
      · exact trivial
      · split
        · exact trivial
        · split
          · exact trivial
          · split
            · exact trivial
            · split
              · exact trivial
              · unfold Tcb.ackAndText
                rcases ackSynReceived_cases th.ack s with ⟨-, hgo⟩ | ⟨-, -, hgo⟩ | ⟨-, -, hret⟩
                · simp only [hgo]
                  exact handleSynchronized_inside hsized hfits
                · simp only [hgo]
                  exact handleSynchronized_inside hsized hfits
                · simp only [hret]
                  exact trivial
    · have hmerge (seg : TcpSeq) (r : Packet) :
          Sat OnlyAborts (fun _ => True) (s.rcv.insertOutOfOrder seg r) :=
        (merge_sat s.rcv.outOfOrder seg r).bind fun _ _ => trivial
      exact ((hmerge _ _).mapError_of fun _ => insidePacket_merger).bind fun _ _ => trivial
  · exact trivial

/-- Behind `get_header`, a segment in SYN_SENT trims nothing too far. -/
theorem inputHandleSynSentState_inside {th : TcbHdr} {p : Packet}
    (hlen : th.dataOffset * 4 ≤ p.length) :
    Sat InsidePacket (fun _ => True) (s.inputHandleSynSentState th p) := by
  have hoptions : Tcb.optionBytes th p = .ok (p.drop TcpHdr.len) := if_pos hlen
  unfold Tcb.inputHandleSynSentState
  rw [hoptions]
  show Sat InsidePacket _ (if _ then _ else _)
  split
  · exact trivial
  · dsimp only
    split
    · exact trivial
    · split
      · exact trivial
      · split
        all_goals
          split
          · exact trivial
          · exact trivial

end

/-! ### The option walker -/

section
variable {bytes : List UInt8} {stop : Nat}

/-- One round of the loop over the options. -/
theorem parseLoop_succ (rounds beg : Nat) (o : TcpOption) :
    TcpOption.parseLoop bytes stop (rounds + 1) beg o =
      match TcpOption.parseRound bytes stop beg o with
      | none => o
      | some (next, u) => TcpOption.parseLoop bytes stop rounds next u := by
  simp only [TcpOption.parseLoop, TcpOption.parseRound]
  repeat' split
  all_goals first | rfl | simp_all

/-- Every round moves the position. -/
theorem parseRound_moves {beg next : Nat} {o u : TcpOption}
    (h : TcpOption.parseRound bytes stop beg o = some (next, u)) : beg < next := by
  simp only [TcpOption.parseRound] at h
  repeat' split at h
  all_goals first | (cases h; omega) | cases h

/-- The loop ends with the options that the model computes in as many rounds as there are bytes. -/
theorem parseEnds_parseLoop (rounds beg : Nat) (o : TcpOption) (hrounds : stop - beg ≤ rounds) :
    TcpOption.ParseEnds bytes stop beg o (TcpOption.parseLoop bytes stop rounds beg o) := by
  induction rounds generalizing beg o with
  | zero =>
    refine .done ?_
    simp only [TcpOption.parseRound]
    rw [if_pos (by omega)]
  | succ rounds ih =>
    rw [parseLoop_succ]
    cases hround : TcpOption.parseRound bytes stop beg o with
    | none => exact .done hround
    | some x =>
      obtain ⟨next, u⟩ := x
      have hmove := parseRound_moves hround
      exact .round hround (ih next u (by omega))

/-- The options in an area whose earlier options left the window scale `scale`: every option that is read
lies in the area, with the value that its kind has, and the last window scale is at most 14. -/
def optionsFit (scale : BitVec 8) : List UInt8 → Bool
  | [] => scale.toNat ≤ 14
  | [kind] => (kind = 0 || kind = 1) && scale.toNat ≤ 14
  | kind :: len :: rest =>
    if kind = 0 then scale.toNat ≤ 14
    else if kind = 1 then optionsFit scale (len :: rest)
    else if rest.length + 2 < len.toNat then scale.toNat ≤ 14
    else if kind = 2 then 2 ≤ rest.length && optionsFit scale (rest.drop 2)
    else if kind = 3 then 1 ≤ rest.length && optionsFit (rest.headD 0).toBitVec (rest.drop 1)
    else if kind = 4 then optionsFit scale rest
    else if len = 0 then scale.toNat ≤ 14
    else optionsFit scale ((len :: rest).drop (len.toNat - 1))
termination_by area => area.length
decreasing_by all_goals simp; try omega

/-- The rest of the area from one position on. -/
theorem drop_area (hstop : stop ≤ bytes.length) {beg : Nat} (hbeg : beg < stop) :
    (bytes.take stop).drop beg = bytes.getD beg 0 :: (bytes.take stop).drop (beg + 1) := by
  have hlen : beg < (bytes.take stop).length := by
    rw [List.length_take]
    omega
  have hget : bytes.getD beg 0 = bytes[beg] := by
    rw [List.getD_eq_getElem?_getD, List.getElem?_eq_getElem]
    rfl
  rw [List.drop_eq_getElem_cons hlen, List.getElem_take, hget]

/-- The reads of a round and of the rounds that follow lie in the area, and the last window scale is at
most 14. -/
def LoopFits (bytes : List UInt8) (stop rounds beg : Nat) (o : TcpOption) : Prop :=
  (∀ i ∈ TcpOption.readsLoop bytes stop rounds beg o, i < stop) ∧
    (TcpOption.parseLoop bytes stop rounds beg o).remoteWinScale.toNat ≤ 14

/-- A round that ends the loop fits when its reads do. -/
theorem loopFits_done {rounds beg : Nat} {o : TcpOption} {reads : List Nat}
    (hround : TcpOption.parseRound bytes stop beg o = none)
    (hreads : TcpOption.roundReads bytes stop beg = reads) :
    LoopFits bytes stop (rounds + 1) beg o ↔
      (∀ i ∈ reads, i < stop) ∧ o.remoteWinScale.toNat ≤ 14 := by
  rw [LoopFits, TcpOption.readsLoop, parseLoop_succ, hround, hreads, List.append_nil]

/-- A round that goes on fits when its reads do and the rest fits. -/
theorem loopFits_round {rounds beg next : Nat} {o u : TcpOption} {reads : List Nat}
    (hround : TcpOption.parseRound bytes stop beg o = some (next, u))
    (hreads : TcpOption.roundReads bytes stop beg = reads) :
    LoopFits bytes stop (rounds + 1) beg o ↔
      (∀ i ∈ reads, i < stop) ∧ LoopFits bytes stop rounds next u := by
  rw [LoopFits, TcpOption.readsLoop, parseLoop_succ, hround, hreads]
  simp only [List.mem_append, or_imp, forall_and, LoopFits, and_assoc]

/-- The loop fits exactly when the grammar of the options accepts the bytes. -/
theorem loopFits_iff (hstop : stop ≤ bytes.length) (rounds beg : Nat) (o : TcpOption)
    (hrounds : stop - beg ≤ rounds) :
    LoopFits bytes stop rounds beg o ↔
      optionsFit o.remoteWinScale ((bytes.take stop).drop beg) = true := by
  induction rounds generalizing beg o with
  | zero =>
    have hnil : (bytes.take stop).drop beg = [] := by
      rw [List.drop_eq_nil_iff, List.length_take]
      omega
    rw [hnil, optionsFit]
    simp [LoopFits, TcpOption.readsLoop, TcpOption.parseLoop]
  | succ rounds ih =>
    by_cases hbeg : stop ≤ beg
    · have hnil : (bytes.take stop).drop beg = [] := by
        rw [List.drop_eq_nil_iff, List.length_take]
        omega
      rw [hnil, optionsFit, @loopFits_done bytes stop rounds beg o [] (by simp [TcpOption.parseRound, hbeg])
        (by simp [TcpOption.roundReads, hbeg])]
      simp
    · have hbeg' : beg < stop := by omega
      have hrest (next : Nat) (u : TcpOption) (hnext : beg < next) :
          LoopFits bytes stop rounds next u ↔
            optionsFit u.remoteWinScale ((bytes.take stop).drop next) = true :=
        ih next u (by omega)
      rw [drop_area hstop hbeg']
      by_cases heol : bytes.getD beg 0 = 0
      · -- `eol` ends the loop.
        have hround : TcpOption.parseRound bytes stop beg o = none := by
          simp only [TcpOption.parseRound, heol, if_neg hbeg]
          rfl
        have hreads : TcpOption.roundReads bytes stop beg = [beg] := by
          simp only [TcpOption.roundReads, heol, if_neg hbeg]
          rfl
        rw [loopFits_done hround hreads, heol]
        cases (bytes.take stop).drop (beg + 1) with
        | nil => simp [optionsFit, hbeg']
        | cons len rest =>
          rw [optionsFit]
          simp [hbeg']
      by_cases hnop : bytes.getD beg 0 = 1
      · have hround : TcpOption.parseRound bytes stop beg o = some (beg + 1, o) := by
          simp only [TcpOption.parseRound, hnop, if_neg hbeg]
          rfl
        have hreads : TcpOption.roundReads bytes stop beg = [beg] := by
          simp only [TcpOption.roundReads, hnop, if_neg hbeg]
          rfl
        rw [loopFits_round hround hreads, hrest _ _ (by omega), hnop]
        cases (bytes.take stop).drop (beg + 1) with
        | nil => simp [optionsFit, hbeg']
        | cons len rest =>
          rw [optionsFit.eq_3 _ 1]
          simp [hbeg']
      -- Every other kind reads the length.
      have hlength : beg + 1 ∈ TcpOption.roundReads bytes stop beg := by
        simp only [TcpOption.roundReads, if_neg hbeg, hnop, heol, or_self, if_false]
        split
        · simp
        · split
          · simp
          · split
            · simp
            · simp
      by_cases hlast : stop ≤ beg + 1
      · have hnil : (bytes.take stop).drop (beg + 1) = [] := by
          rw [List.drop_eq_nil_iff, List.length_take]
          omega
        rw [hnil, optionsFit]
        refine iff_of_false (fun hfits => ?_) ?_
        · have hread := hfits.1 (beg + 1) (List.mem_append_left _ hlength)
          omega
        · rw [decide_eq_false heol, decide_eq_false hnop]
          exact fun h => by cases h
      · rw [drop_area hstop (by omega : beg + 1 < stop), optionsFit]
        have hlength : ((bytes.take stop).drop (beg + 1 + 1)).length = stop - (beg + 2) := by
          rw [List.length_drop, List.length_take]
          omega
        rw [if_neg heol, if_neg hnop]
        have hkind : bytes.getD beg 0 ≠ 1 ∧ bytes.getD beg 0 ≠ 0 := ⟨hnop, heol⟩
        have hkind' : ¬(bytes.getD beg 0 = 1 ∨ bytes.getD beg 0 = 0) := fun h => h.elim hnop heol
        have hpair : (∀ i ∈ [beg, beg + 1], i < stop) ↔ True := by
          simp only [List.mem_cons, List.not_mem_nil, or_false, forall_eq_or_imp, forall_eq]
          exact iff_of_true ⟨hbeg', by omega⟩ trivial
        by_cases hlong : stop < beg + (bytes.getD (beg + 1) 0).toNat
        · have hround : TcpOption.parseRound bytes stop beg o = none := by
            simp only [TcpOption.parseRound]
            rw [if_neg hbeg, if_pos ⟨hnop, heol, hlong⟩]
          have hreads : TcpOption.roundReads bytes stop beg = [beg, beg + 1] := by
            simp only [TcpOption.roundReads]
            rw [if_neg hbeg, if_neg hkind', if_pos hlong]
          rw [loopFits_done hround hreads, hpair, true_and, if_pos (by omega), decide_eq_true_iff]
        · have hshort : ¬(bytes.getD beg 0 ≠ 1 ∧ bytes.getD beg 0 ≠ 0 ∧
              stop < beg + (bytes.getD (beg + 1) 0).toNat) := fun h => hlong h.2.2
          rw [if_neg (by omega)]
          have hround : TcpOption.parseRound bytes stop beg o = TcpOption.parseRound bytes stop beg o :=
            rfl
          have hreads : TcpOption.roundReads bytes stop beg = TcpOption.roundReads bytes stop beg := rfl
          conv at hround =>
            rhs
            simp only [TcpOption.parseRound]
            rw [if_neg hbeg, if_neg hshort]
          conv at hreads =>
            rhs
            simp only [TcpOption.roundReads]
            rw [if_neg hbeg, if_neg hkind', if_neg hlong]
          by_cases hmss : bytes.getD beg 0 = 2
          · rw [if_pos hmss] at hround hreads
            rw [loopFits_round hround hreads, hrest _ _ (by omega), if_pos hmss, Bool.and_eq_true,
              decide_eq_true_iff, List.drop_drop, hlength]
            refine and_congr_left fun _ => ?_
            simp only [List.mem_cons, List.not_mem_nil, or_false, forall_eq_or_imp, forall_eq]
            omega
          rw [if_neg hmss] at hround hreads ⊢
          by_cases hscale : bytes.getD beg 0 = 3
          · rw [if_pos hscale] at hround hreads
            rw [loopFits_round hround hreads, hrest _ _ (by omega), if_pos hscale, Bool.and_eq_true,
              decide_eq_true_iff, List.drop_drop, hlength]
            by_cases hvalue : beg + 2 < stop
            · have hhead : ((bytes.take stop).drop (beg + 1 + 1)).headD 0 = bytes.getD (beg + 2) 0 := by
                rw [drop_area hstop hvalue]
                rfl
              rw [hhead]
              refine and_congr_left fun _ => ?_
              simp only [List.mem_cons, List.not_mem_nil, or_false, forall_eq_or_imp, forall_eq]
              omega
            · refine iff_of_false (fun hfits => ?_) (fun hfits => ?_)
              · have hread := hfits.1 (beg + 2) (by simp)
                omega
              · have hread := hfits.1
                omega
          rw [if_neg hscale] at hround hreads ⊢
          by_cases hsack : bytes.getD beg 0 = 4
          · rw [if_pos hsack] at hround
            rw [loopFits_round hround hreads, hrest _ _ (by omega), hpair, true_and, if_pos hsack]
          rw [if_neg hsack, if_neg hnop, if_neg heol] at hround
          rw [if_neg hsack]
          by_cases hzero : bytes.getD (beg + 1) 0 = 0
          · rw [if_pos (by rw [hzero]; rfl)] at hround
            rw [loopFits_done hround hreads, hpair, true_and, if_pos hzero, decide_eq_true_iff]
          · have hpos : (bytes.getD (beg + 1) 0).toNat ≠ 0 := fun h => hzero (UInt8.toNat_inj.mp h)
            rw [if_neg hpos] at hround
            rw [loopFits_round hround hreads, hrest _ _ (by omega), hpair, true_and, if_neg hzero,
              ← drop_area hstop (by omega : beg + 1 < stop), List.drop_drop]
            have hnext : beg + 1 + ((bytes.getD (beg + 1) 0).toNat - 1)
                = beg + (bytes.getD (beg + 1) 0).toNat := by omega
            rw [hnext]

/-- `parse` ends, reads nothing behind the first `stop` bytes, and keeps the scale within its
range. -/
structure ParsesInside (o : TcpOption) (bytes : List UInt8) (stop : Nat) : Prop where
  ends : ∃ r, TcpOption.ParseEnds bytes stop 0 o r
  inside : ∀ i ∈ o.parseReads bytes stop, i < stop
  scale : (o.parse bytes stop).remoteWinScale.toNat ≤ 14

/-- The parser stays inside exactly when the grammar of the options accepts the bytes. -/
theorem parsesInside_iff (hstop : stop ≤ bytes.length) (o : TcpOption) :
    ParsesInside o bytes stop ↔ optionsFit o.remoteWinScale (bytes.take stop) = true := by
  have hloop := loopFits_iff hstop stop 0 o (by omega)
  rw [List.drop_zero] at hloop
  rw [← hloop]
  constructor
  · intro h
    exact ⟨h.inside, h.scale⟩
  · intro h
    exact ⟨⟨_, parseEnds_parseLoop stop 0 o (by omega)⟩, h.1, h.2⟩

end

/-! ### `received` -/

/-- The packets that wait have their `unsigned` lengths, and no segment in flight is empty. -/
theorem stable_fits : Stable fun unsent data => Sized unsent ∧ ∀ seg ∈ data, Fits seg where
  nil := ⟨sized_nil, fun _ h => nomatch h⟩
  keeps := fun hkeeps h => ⟨hkeeps.sized h.1, hkeeps.fits h.1 h.2⟩
  send := fun hp h => ⟨@Stable.send _ stable_sized _ [] _ hp h.1, h.2⟩

/-- In every reachable connection the data is sized and the segments fit. -/
theorem fits_of_reachable {tso : Bool} {t : Tcb} (h : t.Reachable tso) :
    Sized t.snd.unsent ∧ ∀ seg ∈ t.snd.data, Fits seg := by
  obtain ⟨s, es, u, hopen, hrun, -, rfl⟩ := h
  have hfirst := (opening_of_open hopen).tcb
  refine run_invariant (fun u : Session => Sized u.tcb.snd.unsent ∧ ∀ seg ∈ u.tcb.snd.data, Fits seg)
    (fun e _ a b ha hstep => ?_) ?_ hrun
  · obtain ⟨-, hen, ⟨f, -, rfl⟩ | ⟨o, v, hv, rfl⟩⟩ := step_cases hstep
    · exact ha
    · exact stable_fits.handle ha hen hv
  · rw [hfirst.unsent, hfirst.data]
    exact stable_fits.nil

section
variable {tso : Bool} {g : Tcb} {isn : TcpSeq} {p : Packet} {src dst : BitVec 32} {s : TcpLayer}

/-- `received` uses no header outside of the packet and trims nothing too far, and `parse` is safe
when it is called. -/
structure Processes (tso : Bool) (g : Tcb) (isn : TcpSeq) (p : Packet) (src dst : BitVec 32)
    (s : TcpLayer) : Prop where
  inside : Sat InsidePacket (fun _ => True) (s.received tso g isn p src dst)
  options : ∀ o, s.parses p src dst = some o →
    ParsesInside o (TcpLayer.optionArea p) (TcpLayer.optionLen p)

/-- The packet is dropped or answered with a reset, or it holds its header with the options, and the
options fit when they are parsed. -/
def PacketFits (p : Packet) (src dst : BitVec 32) (s : TcpLayer) : Prop :=
  let area := (TcpLayer.optionArea p).take (TcpLayer.optionLen p)
  match s.route p src dst with
  | .dropped | .reset => True
  | .listen _ _ => (TcbHdr.read p).dataOffset * 4 ≤ p.length ∧ optionsFit 0 area = true
  | .connection _ t => (TcbHdr.read p).dataOffset * 4 ≤ p.length ∧
    (t.state = .synSent ∧ t.answersSyn (TcbHdr.read p) p →
      optionsFit t.option.remoteWinScale area = true)

/-- When the header is in the packet, so are its options. -/
theorem optionLen_le (h : (TcbHdr.read p).dataOffset * 4 ≤ p.length) :
    TcpLayer.optionLen p ≤ (TcpLayer.optionArea p).length := by
  rw [TcpLayer.optionLen, TcpLayer.optionArea, List.length_drop]
  omega

/-- A header that is not in the packet is null. -/
theorem optionBytes_short {th : TcbHdr} (h : ¬th.dataOffset * 4 ≤ p.length) :
    Tcb.optionBytes th p = .error .nullHeader := if_neg h

/-- A data offset behind the end of the packet stops every handler of a connection. -/
theorem not_inputHandle_inside {th : TcbHdr} {t : Tcb} (h : ¬th.dataOffset * 4 ≤ p.length) :
    ¬Sat InsidePacket (fun _ => True) (t.inputHandle tso th p) := by
  unfold Tcb.inputHandle
  split
  · unfold Tcb.inputHandleSynSentState
    rw [optionBytes_short h]
    exact fun hsat => hsat.1 rfl
  · have htrim : trimFront p (th.dataOffset * 4) = .error .trimAssert := by
      unfold trimFront
      exact if_neg (fun hrange => h (by omega))
    unfold Tcb.inputHandleOtherState
    rw [htrim]
    exact fun hsat => hsat.2 rfl

/-- A segment with its whole header reads nothing outside. -/
theorem inputHandle_inside {th : TcbHdr} {t : Tcb} (hreach : t.Reachable tso)
    (h : th.dataOffset * 4 ≤ p.length) :
    Sat InsidePacket (fun _ => True) (t.inputHandle tso th p) := by
  obtain ⟨hsized, hfits⟩ := fits_of_reachable hreach
  unfold Tcb.inputHandle
  split
  · exact inputHandleSynSentState_inside h
  · exact inputHandleOtherState_inside hsized hfits h

/-- When a computation reads nothing outside, its first part does not either. -/
theorem sat_of_bind {α β : Type} {x : Except TcbFault α} {f : α → Except TcbFault β}
    (h : Sat InsidePacket (fun _ => True) (x >>= f)) : Sat InsidePacket (fun _ => True) x := by
  cases x with
  | error e => exact h
  | ok a => exact trivial

/-- A packet goes to the connection that the table has for it. -/
theorem lookup_of_route {id : ConnId} {t : Tcb} (h : s.route p src dst = .connection id t) :
    s.tcbs.lookup id = some t := by
  unfold TcpLayer.route at h
  split at h
  · cases h
  · split at h
    · cases h
    · dsimp only at h
      split at h
      · split at h
        · cases h
        · -- Every branch of a listener ends without a connection.
          split at h
          · cases h
          · split at h
            · cases h
            · split at h
              · cases h
              · split at h
                · cases h
                · cases h
      · rename_i u hu
        cases h
        exact hu

/-- What a lookup finds is in the table. -/
theorem mem_of_lookup {id : ConnId} {t : Tcb} (h : s.tcbs.lookup id = some t) : (id, t) ∈ s.tcbs := by
  obtain ⟨front, rest, heq, -⟩ := List.lookup_eq_some_iff.mp h
  rw [heq]
  exact List.mem_append_right _ List.mem_cons_self

/-- `received`, for every packet and every reachable state of the connections, is safe if and only if the
packet fits. -/
theorem processes_iff (hreach : ∀ e ∈ s.tcbs, e.2.Reachable tso) :
    Processes tso g isn p src dst s ↔ PacketFits p src dst s := by
  -- The options are parsed on two routes: by a listener, and by a connection in SYN_SENT that the
  -- segment answers.
  have hparse (o : TcpOption) (hlen : (TcbHdr.read p).dataOffset * 4 ≤ p.length) :=
    parsesInside_iff (optionLen_le hlen) o
  cases hroute : s.route p src dst with
  | dropped =>
    simp only [PacketFits, hroute, iff_true]
    refine ⟨?_, fun o ho => ?_⟩
    · rw [TcpLayer.received, hroute]
      exact trivial
    · rw [TcpLayer.parses, hroute] at ho
      cases ho
  | reset =>
    simp only [PacketFits, hroute, iff_true]
    refine ⟨?_, fun o ho => ?_⟩
    · rw [TcpLayer.received, hroute]
      exact trivial
    · rw [TcpLayer.parses, hroute] at ho
      cases ho
  | listen id l =>
    have hcalled : s.parses p src dst = some {} := by rw [TcpLayer.parses, hroute]
    simp only [PacketFits, hroute]
    constructor
    · rintro ⟨hinside, hoptions⟩
      have hlen : (TcbHdr.read p).dataOffset * 4 ≤ p.length := by
        -- A header that is longer than the packet makes the handler read at a null pointer.
        by_contra hshort
        rw [TcpLayer.received, hroute] at hinside
        have hhandler := sat_of_bind hinside
        unfold Tcb.inputHandleListenState at hhandler
        rw [optionBytes_short hshort] at hhandler
        exact hhandler.1 rfl
      exact ⟨hlen, (hparse {} hlen).mp (hoptions {} hcalled)⟩
    · rintro ⟨hlen, hfit⟩
      refine ⟨?_, fun o ho => ?_⟩
      · have hoptions : Tcb.optionBytes (TcbHdr.read p) p = .ok (p.drop TcpHdr.len) := if_pos hlen
        rw [TcpLayer.received, hroute]
        unfold Tcb.inputHandleListenState
        rw [hoptions]
        exact trivial
      · rw [hcalled] at ho
        cases ho
        exact (hparse {} hlen).mpr hfit
  | connection id t =>
    have hreachable : t.Reachable tso := hreach _ (mem_of_lookup (lookup_of_route hroute))
    simp only [PacketFits, hroute]
    have hcalled (hanswer : t.state = .synSent ∧ t.answersSyn (TcbHdr.read p) p) :
        s.parses p src dst = some t.option := by
      rw [TcpLayer.parses, hroute]
      exact if_pos hanswer
    constructor
    · rintro ⟨hinside, hoptions⟩
      have hlen : (TcbHdr.read p).dataOffset * 4 ≤ p.length := by
        by_contra hshort
        rw [TcpLayer.received, hroute] at hinside
        exact not_inputHandle_inside hshort (sat_of_bind hinside)
      exact ⟨hlen, fun hanswer => (hparse t.option hlen).mp (hoptions _ (hcalled hanswer))⟩
    · rintro ⟨hlen, hfit⟩
      refine ⟨?_, fun o ho => ?_⟩
      · rw [TcpLayer.received, hroute]
        exact (inputHandle_inside hreachable hlen).bind fun _ _ => trivial
      · rw [TcpLayer.parses, hroute] at ho
        obtain ⟨hanswer, heq⟩ := Option.ite_none_right_eq_some.mp ho
        cases heq
        exact (hparse t.option hlen).mpr (hfit hanswer)

/-- The connections that `tcp` has are reachable and not removed. -/
def TcpLayer.Reachable (tso : Bool) (s : TcpLayer) : Prop :=
  ∀ e ∈ s.tcbs, e.2.Reachable tso ∧ e.2.removed = false

/-- Writing a reachable connection back keeps the layer reachable. -/
theorem reachable_setTcb {id : ConnId} {t : Tcb} (h : TcpLayer.Reachable tso s)
    (ht : t.Reachable tso) : TcpLayer.Reachable tso (s.setTcb id t) := by
  intro e he
  have hrest : ∀ e ∈ s.tcbs.filter fun e => e.1 ≠ id, e.2.Reachable tso ∧ e.2.removed = false :=
    fun e he => h e (List.mem_filter.mp he).1
  unfold TcpLayer.setTcb at he
  dsimp only at he
  split at he
  · exact hrest e he
  · rename_i hlive
    rcases List.mem_cons.mp he with rfl | he
    · exact ⟨ht, Bool.not_eq_true _ |>.mp hlive⟩
    · exact hrest e he

/-- An event of a reachable connection. -/
theorem reachable_handle {t u : Tcb} {e : TcbEvent} {o : Option OutSegment} (h : t.Reachable tso)
    (hen : t.enabled e = true) (hok : t.handle tso e = .ok (o, u)) : u.Reachable tso := by
  obtain ⟨s, es, v, hopen, hrun, hfault, rfl⟩ := h
  obtain ⟨w, hstep, hquiet, hconn⟩ :
      ∃ w, v.step tso e = some w ∧ w.fault = none ∧ w.tcb = u := by
    unfold Session.step
    rw [if_pos ⟨hfault, hen⟩, hok]
    exact ⟨_, rfl, hfault, rfl⟩
  have hruns : run (Session.step tso) s (es ++ [e]) = some w :=
    run_append.mpr ⟨v, hrun, run_cons.mpr ⟨w, hstep, rfl⟩⟩
  exact ⟨s, es ++ [e], w, hopen, hruns, hquiet, hconn⟩

/-- `received` leaves reachable connections behind. -/
theorem reachable_received {s' : TcpLayer} (h : TcpLayer.Reachable tso s)
    (hok : s.received tso g isn p src dst = .ok s') : TcpLayer.Reachable tso s' := by
  unfold TcpLayer.received at hok
  cases hroute : s.route p src dst with
  | dropped | reset =>
    rw [hroute] at hok
    cases hok
    exact h
  | listen id l =>
    rw [hroute] at hok
    obtain ⟨t, ht, hret⟩ := bind_eq_ok.mp hok
    cases hret
    have hnew : t.Reachable tso :=
      ⟨{ tcb := t }, [], _, .inl ⟨_, g, p, isn, t, ht, rfl⟩, rfl, rfl, rfl⟩
    exact reachable_setTcb h hnew
  | connection id t =>
    rw [hroute] at hok
    obtain ⟨u, hu, hret⟩ := bind_eq_ok.mp hok
    cases hret
    obtain ⟨ht, hlive⟩ := h _ (mem_of_lookup (lookup_of_route hroute))
    have hnext : u.Reachable tso := by
      refine reachable_handle (e := .segment (TcbHdr.read p) p) ht ?_ (map_eq_ok.mpr ⟨u, hu, rfl⟩)
      show (!t.removed) = true
      rw [show t.removed = false from hlive]
      rfl
    refine reachable_setTcb (s := if u.connected && !t.connected then
      s.addConnectedTcb id.localPort else s) ?_ hnext
    split
    · unfold TcpLayer.addConnectedTcb
      split
      · exact h
      · exact h
    · exact h

end

/-- A segment of 20 bytes from port 12345 to port 80, with an ACK. -/
def ackPacket : Packet :=
  [0x30, 0x39, 0, 80, 0, 0, 0, 0, 0, 0, 0, 0, 0x50, 0x10, 0xfa, 0, 0, 0, 0, 0]

/-- A SYN of 20 bytes whose data offset says 24. -/
def longSyn : Packet :=
  [0x30, 0x39, 0, 80, 0, 0, 0, 0, 0, 0, 0, 0, 0x60, 0x02, 0xfa, 0, 0, 0, 0, 0]

/-- The sample connection is reachable. -/
theorem reachable_acceptedTcb (tso : Bool) : acceptedTcb.Reachable tso :=
  ⟨{ tcb := acceptedTcb }, [], _, .inl ⟨lastSyn, passiveOpen_acceptedTcb⟩, rfl, rfl, rfl⟩

/-- The handshake of a connection. -/
theorem processes_ack :
    Processes false acceptedTcb ⟨0⟩ ackPacket 1 2 { tcbs := [(⟨2, 1, 80, 12345⟩, acceptedTcb)] } := by
  refine (processes_iff fun e he => ?_).mpr ?_
  · rw [List.mem_singleton.mp he]
    exact reachable_acceptedTcb false
  · exact ⟨by decide, fun h => nomatch h.1⟩

/-- The handler of a listener goes through a null pointer. -/
theorem not_processes_longSyn :
    ¬∀ (tso : Bool) (g : Tcb) (isn : TcpSeq) (p : Packet) (src dst : BitVec 32) (s : TcpLayer),
      (∀ e ∈ s.tcbs, e.2.Reachable tso) → Processes tso g isn p src dst s := by
  intro h
  have hprocesses := h false acceptedTcb ⟨0⟩ longSyn 1 2 { listening := [(80, { maxSize := 100 })] }
    (fun _ he => nomatch he)
  have hfault : TcpLayer.received false acceptedTcb ⟨0⟩ longSyn 1 2
      { listening := [(80, { maxSize := 100 })] } = .error .nullHeader := rfl
  have hinside := hprocesses.inside
  rw [hfault] at hinside
  exact hinside.1 rfl

end Netstar.Proofs.Net
