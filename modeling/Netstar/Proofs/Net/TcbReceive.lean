import Netstar.Proofs.Net.TcbStream
import Netstar.Proofs.Preprocessor.TcpReorder

/-!
# `Netstar.Proofs.Net.TcbReceive`: the receive side of a connection and the stream of the peer

The peer sends `stream` and perhaps a FIN behind it. The byte at position `x` has the sequence number
`irs + 1 + x`, and the FIN has the position `stream.length`. `RecvInv irs stream k m s` is the
invariant while the connection is in `_tcbs`: `RCV.NXT` is the number of position `k`, and the
out-of-order map is the wrapped form of a separated map `m` of stream segments behind `k`. The
position is `stream.length + 1` exactly when the FIN was taken, and the states tell whether it was.

A segment without payload that arrives out of order goes to the map as an empty segment. It stands for
no byte of the stream, so the invariant bounds the bytes that the map covers and not its segments.

`cleanup` drops the bytes that the user has not read. So the exact result holds until then, and
`Progress` says what is left of it afterwards.
-/

set_option autoImplicit false

namespace Netstar.Proofs.Net

open Netstar.Lib
open Netstar.Spec.Net
open Netstar.Spec.Preprocessor (TcpReorderPpr)

/-! ### The stream -/

/-- The byte of the stream at a position. -/
def byteAt (stream : List UInt8) (x : Int) : UInt8 := stream.getD x.toNat 0

/-- The number of position `x`. -/
theorem seq_eq_wrap (irs : TcpSeq) (x : Int) : irs.add (1 + x) = wrap (irs.raw + 1) x := by
  simp [TcpSeq.add, wrap, BitVec.ofInt_add, BitVec.add_assoc]

/-- A slice inside the stream. -/
theorem slice_byteAt (stream : List UInt8) {k n : Nat} (hend : k + n ≤ stream.length) :
    slice (byteAt stream) k n = (stream.drop k).take n := by
  apply List.ext_getElem?
  intro i
  rw [getElem?_slice, List.getElem?_take, List.getElem?_drop]
  split
  · have hlt : k + i < stream.length := by omega
    have hpos : ((k : Int) + i).toNat = k + i := by omega
    rw [byteAt, hpos, List.getD_eq_getElem?_getD, List.getElem?_eq_getElem hlt, Option.getD_some]
  · rfl

/-- The sequence number of a byte of the stream. -/
theorem seq_nat (irs : TcpSeq) (k : Nat) : irs.add (1 + k : Nat) = wrap (irs.raw + 1) k := by
  rw [← seq_eq_wrap]
  push_cast
  rfl

/-- Two positions that are not too far apart have different numbers. -/
theorem wrap_inj {base : BitVec 32} {x y : Int} (heq : wrap base x = wrap base y)
    (hlo : -2 ^ 31 ≤ x - y) (hhi : x - y < 2 ^ 31) : x = y := by
  have hsub := sub_wrap base x y hlo hhi
  rw [heq, sub_wrap base y y (by omega) (by omega)] at hsub
  omega

/-- The bytes between two positions continue the prefix up to the first one. -/
theorem take_append_slice (stream : List UInt8) {k k' : Nat} (hle : k ≤ k')
    (hend : k' ≤ stream.length) :
    stream.take k' = stream.take k ++ slice (byteAt stream) k (k' - k) := by
  rw [slice_byteAt stream (by omega), ← List.take_add, Nat.add_sub_cancel' hle]

/-! ### The invariant -/

/-- The receive side of a connection in `_tcbs`. -/
structure RecvInv (irs : TcpSeq) (stream : List UInt8) (k : Nat) (m : SegMap Int) (s : Tcb) :
    Prop where
  next : s.rcv.next = wrap (irs.raw + 1) k
  window : 0 < s.rcv.window.toNat ∧ s.rcv.window.toNat < 2 ^ 30
  map : s.rcv.outOfOrder = wrapMap (irs.raw + 1) m
  separated : Separated m
  agrees : ∀ t ∈ m, Agrees (byteAt stream) t
  inWindow : ∀ t ∈ m, InWindow k t
  ahead : k ≤ stream.length → ∀ t ∈ m, k < t.1
  inside : ∀ x, Covers m x → x < stream.length
  synchronized : s.state ≠ .synSent
  le : k ≤ stream.length + 1
  fin : finConsumed s = true ↔ k = stream.length + 1

/-- `new` is what the connection took between the positions `k` and `k'`. -/
def Takes (stream : List UInt8) (k k' : Nat) (s t : Tcb) : Prop :=
  ∃ new, t.rcv.data.flatten = s.rcv.data.flatten ++ new ∧ stream.take k' = stream.take k ++ new

/-- The connection moves from position `k` to position `k'`, or it is removed there. -/
structure Progress (irs : TcpSeq) (stream : List UInt8) (k k' : Nat) (s t : Tcb) : Prop where
  le : k ≤ k'
  next : t.rcv.next = wrap (irs.raw + 1) k'
  bound : k' ≤ stream.length + 1
  fin : finConsumed t = true → k' = stream.length + 1
  rest : (t.removed = false ∧ (∃ m, RecvInv irs stream k' m t) ∧ Takes stream k k' s t) ∨
    (t.removed = true ∧ t.rcv.data = [])

/-- The segment resets the connection. -/
def Resets (th : TcbHdr) (s : Tcb) : Prop :=
  (th.fRst = true ∧ s.inState [.closed, .listen, .synSent] = false) ∨ th.fSyn = true

/-- The segment ends the connection before its text is looked at: it resets it, or it acknowledges our
FIN in CLOSING or LAST_ACK. -/
def EndsConnection (th : TcbHdr) (s : Tcb) : Prop :=
  Resets th s ∨
    (th.fAck = true ∧ s.inState [.closing, .lastAck] = true ∧ th.ack = s.snd.next.add 1)

/-- The FIN of the segment finds FIN_WAIT_2, or FIN_WAIT_1 when the segment acknowledges our FIN. -/
def TakesLastFin (th : TcbHdr) (s : Tcb) : Prop :=
  ¬Resets th s ∧ th.fAck = true ∧ th.fFin = true ∧
    (s.state = .finWait2 ∨ s.state = .finWait1 ∧ th.ack = s.snd.next.add 1)

section
variable {irs : TcpSeq} {stream : List UInt8} {k : Nat} {m : SegMap Int} {s t : Tcb} {tso : Bool}

/-- Nothing is taken. -/
theorem Takes.refl (h : t.rcv.data = s.rcv.data) : Takes stream k k s t :=
  ⟨[], by simp [h], by simp⟩

/-- The invariant reads the sequence numbers, the map and whether the FIN was taken. -/
theorem RecvInv.same (h : RecvInv irs stream k m s) (hnext : t.rcv.next = s.rcv.next)
    (hwindow : t.rcv.window = s.rcv.window) (hmap : t.rcv.outOfOrder = s.rcv.outOfOrder)
    (hsyn : t.state ≠ .synSent) (hfin : finConsumed t = finConsumed s) : RecvInv irs stream k m t where
  next := hnext.trans h.next
  window := hwindow ▸ h.window
  map := hmap.trans h.map
  separated := h.separated
  agrees := h.agrees
  inWindow := h.inWindow
  ahead := h.ahead
  inside := h.inside
  synchronized := hsyn
  le := h.le
  fin := hfin ▸ h.fin

/-- Whether the FIN was consumed depends on the state only. -/
theorem finConsumed_of_state (h : t.state = s.state) : finConsumed t = finConsumed s := by
  rw [finConsumed, finConsumed, Tcb.inState, Tcb.inState, h]

/-- A step of the send side keeps the invariant. -/
theorem RecvInv.keeps (h : RecvInv irs stream k m s) (hkeeps : Keeps s t) : RecvInv irs stream k m t :=
  h.same (congrArg Receive.next hkeeps.rcv) (congrArg Receive.window hkeeps.rcv)
    (congrArg Receive.outOfOrder hkeeps.rcv) (hkeeps.state ▸ h.synchronized)
    (finConsumed_of_state hkeeps.state)

/-- The connection `u` took the text up to `k'`, and what follows does not change that. -/
theorem RecvInv.progress_of_takes {k' : Nat} {u : Tcb} (h : RecvInv irs stream k' m u) (hle : k ≤ k')
    (htakes : Takes stream k k' s u) (hlive : u.removed = false) (hkeeps : Keeps u t) :
    Progress irs stream k k' s t := by
  have ht := h.keeps hkeeps
  refine ⟨hle, ht.next, h.le, ht.fin.mp, .inl ⟨hkeeps.removed.trans hlive, ⟨m, ht⟩, ?_⟩⟩
  rw [Takes, hkeeps.rcv]
  exact htakes

/-- Nothing is taken. -/
theorem RecvInv.progress (h : RecvInv irs stream k m t) (hlive : t.removed = false)
    (hdata : t.rcv.data = s.rcv.data) : Progress irs stream k k s t :=
  ⟨Nat.le_refl _, h.next, h.le, h.fin.mp, .inl ⟨hlive, ⟨m, h⟩, .refl hdata⟩⟩

/-- Nothing is taken, and the connection is removed. -/
theorem progress_of_removed (hnext : t.rcv.next = wrap (irs.raw + 1) k) (hle : k ≤ stream.length + 1)
    (hfin : finConsumed t = true → k = stream.length + 1) (hremoved : t.removed = true)
    (hdata : t.rcv.data = []) : Progress irs stream k k s t :=
  ⟨Nat.le_refl _, hnext, hle, hfin, .inr ⟨hremoved, hdata⟩⟩

/-! ### Taking text -/

/-- `merge_out_of_order` of a connection is the one of the preprocessor, with a flag. -/
theorem mergeOutOfOrderLoop_eq (m : SegMap TcpSeq) (next : TcpSeq) (data : List Packet)
    (merged : Bool) :
    (Receive.mergeOutOfOrderLoop next data merged m).map (fun r => (r.1, r.2.1, r.2.2.1))
      = TcpReorderPpr.mergeOutOfOrderLoop next data m := by
  induction m generalizing next data merged with
  | nil => rfl
  | cons seg rest ih =>
    obtain ⟨b, p⟩ := seg
    unfold Receive.mergeOutOfOrderLoop TcpReorderPpr.mergeOutOfOrderLoop
    dsimp only
    split
    · unfold TcpReorderPpr.trimFrontIf
      generalize (if next.sub b ≠ 0 then trimFront p (next.sub b) else .ok p) = trimmed
      cases trimmed with
      | error e => rfl
      | ok q => exact ih _ _ true
    · split
      · exact ih next data merged
      · rfl

/-- The text of a segment in sequence is taken together with the out-of-order segments that continue
it. -/
theorem RecvInv.takeText {p : Packet} {b : Bool} (h : RecvInv irs stream k m s)
    (hopen : finConsumed s = false) (hp : Agrees (byteAt stream) (k, p))
    (hshort : p.length < 2 ^ 31) (hend : 0 < p.length → k + p.length ≤ stream.length)
    (htext : s.takeText p = .ok (b, t)) :
    ∃ k' m', k + p.length ≤ k' ∧ k' < k + 2 ^ 31 ∧ k' ≤ stream.length ∧ RecvInv irs stream k' m' t ∧
      Takes stream k k' s t ∧ t.removed = s.removed ∧ t.state = s.state := by
  have hk : k ≤ stream.length := by
    have hle := h.le
    have hne : k ≠ stream.length + 1 := fun heq => by
      rw [h.fin.mpr heq] at hopen
      cases hopen
    omega
  rcases takeText_ok htext with ⟨hzero, rfl⟩ | ⟨hpos, merged, rcv, hmerge, hkeeps⟩
  · exact ⟨k, m, by omega, by omega, hk, h, .refl rfl, rfl, rfl⟩
  · obtain ⟨n, extra, m', hrun, hle, hlast, hextra, hsuf, hgt⟩ :=
      Preprocessor.mergeOutOfOrderLoop_spec (byteAt stream) (irs.raw + 1) k m (k + p.length)
        (s.rcv.data ++ [p]) h.separated h.agrees h.inWindow (by omega) (by omega)
    -- Positions from here on are at least `k`, so they are natural numbers.
    obtain ⟨k', rfl⟩ : ∃ k' : Nat, n = k' := ⟨n.toNat, by omega⟩
    obtain ⟨⟨next, data, map, flag⟩, hloop, hret⟩ := bind_eq_ok.mp hmerge
    cases hret
    have heq := mergeOutOfOrderLoop_eq s.rcv.outOfOrder (s.rcv.next.add p.length)
      (s.rcv.data ++ [p]) false
    rw [hloop, h.next, h.map, add_wrap, hrun] at heq
    obtain ⟨rfl, rfl, rfl⟩ : next = wrap (irs.raw + 1) k' ∧ data = s.rcv.data ++ [p] ++ extra ∧
        map = wrapMap (irs.raw + 1) m' := by
      simpa [Except.map] using heq
    have hinside : k' ≤ stream.length ∧ k' < k + 2 ^ 31 := by
      rcases hlast with heq | hcovers
      · have := hend hpos
        omega
      · have hlt := h.inside _ hcovers
        obtain ⟨seg, hseg, -, hstop⟩ := hcovers
        have := (h.inWindow seg hseg).2
        omega
    refine ⟨k', m', by omega, hinside.2, hinside.1, ?_, ?_, hkeeps.removed, hkeeps.state⟩
    · refine RecvInv.keeps ?_ hkeeps
      refine ⟨rfl, h.window, rfl, List.Pairwise.sublist hsuf.sublist h.separated,
        fun t ht => h.agrees t (hsuf.subset ht), fun t ht => ?_, fun _ => hgt, fun x hx => ?_,
        h.synchronized, by omega, ?_⟩
      · have hstart := hgt t ht
        have hstop := (h.inWindow t (hsuf.subset ht)).2
        exact ⟨by omega, by omega⟩
      · obtain ⟨seg, hseg, hx⟩ := hx
        exact h.inside x ⟨seg, hsuf.subset hseg, hx⟩
      · show finConsumed s = true ↔ _
        rw [hopen]
        constructor
        · intro hfalse
          cases hfalse
        · intro heq
          omega
    · refine ⟨p ++ extra.flatten, ?_, ?_⟩
      · rw [hkeeps.rcv]
        simp
      · have hp' : p = slice (byteAt stream) k p.length := hp
        have hsplit := slice_append_between (byteAt stream) (a := (k : Int)) (b := k + p.length)
          (c := k') (by omega) hle
        have hlen : ((k : Int) + p.length - k).toNat = p.length := by omega
        have htotal : ((k' : Int) - k).toNat = k' - k := by omega
        rw [hlen, htotal, ← hp', ← hextra] at hsplit
        rw [hsplit]
        exact take_append_slice stream (by omega) hinside.1

/-! ### A segment in sequence -/

/-- What a segment of the stream carries behind `RCV.NXT`. -/
structure InOrderText (stream : List UInt8) (k : Nat) (th : TcbHdr) (p : Packet) : Prop where
  agrees : Agrees (byteAt stream) (k, p)
  short : p.length < 2 ^ 31
  inside : 0 < p.length → k + p.length ≤ stream.length
  fin : th.fFin = true → k + p.length = stream.length

/-- A FIN advances `RCV.NXT` by one. -/
theorem rcv_finReceived (base : BitVec 32) (x : Nat) (s : Tcb) :
    (finReceived (wrap base x) s).rcv
      = { s.rcv with next := wrap base (x + 1 : Nat), dataReceivedPromise := false } := by
  rw [finReceived, rcv_output, Tcb.clearDelayedAck, Tcb.signalDataReceived, add_wrap]
  rfl

/-- The FIN is taken, and the connection stays in `_tcbs`. -/
theorem RecvInv.finTaken {v : Tcb} (h : RecvInv irs stream stream.length m s)
    (hrcv : v.rcv = { s.rcv with
      next := wrap (irs.raw + 1) (stream.length + 1 : Nat), dataReceivedPromise := false })
    (hfin : finConsumed v = true) : RecvInv irs stream (stream.length + 1) m v := by
  refine ⟨by rw [hrcv], by rw [hrcv]; exact h.window, by rw [hrcv]; exact h.map, h.separated,
    h.agrees, fun t ht => ?_, by omega, h.inside, fun hst => ?_, Nat.le_refl _, by simp [hfin]⟩
  · have hstart := h.ahead (Nat.le_refl _) t ht
    have hstop := (h.inWindow t ht).2
    exact ⟨by omega, by omega⟩
  · rw [finConsumed, Tcb.inState, hst] at hfin
    cases hfin

/-- The segment with the header `th` and the text `p` removes the connection `s`: an RST or a SYN, the
acknowledgment of our FIN in CLOSING and LAST_ACK, or the FIN of the peer in FIN_WAIT_2, behind the
text. Only the last one moves `RCV.NXT`, to the end of the stream. -/
inductive Removal (stream : List UInt8) (k k' : Nat) (s : Tcb) (th : TcbHdr) (p : Packet) : Prop where
  | reset (h : EndsConnection th s) (hk : k' = k)
  | lastFin (h : TakesLastFin th s) (hk : k' = stream.length + 1) (hp : k + p.length = stream.length)

/-- A connection that is there was not removed. -/
theorem not_removed (hlive : t.removed = false) {P : Prop} (h : t.removed = true) : P := by
  rw [hlive] at h
  cases h

/-- The text and the FIN of a segment in order are taken into the stream. -/
theorem RecvInv.textAndFin {th : TcbHdr} {p : Packet} {d : Bool} (h : RecvInv irs stream k m s)
    (hlive : s.removed = false) (hst : s.state ≠ .synReceived) (hseg : InOrderText stream k th p)
    (htext : s.textAndFin th (wrap (irs.raw + 1) k) p d = .ok t) :
    ∃ k', Progress irs stream k k' s t ∧ (t.removed = true → s.state = .finWait2 ∧ th.fFin = true ∧
      k' = stream.length + 1 ∧ k + p.length = stream.length) := by
  unfold Tcb.textAndFin at htext
  split at htext
  · cases htext
    exact ⟨k, h.progress hlive rfl, not_removed hlive⟩
  · rename_i hnot
    have hopen : finConsumed s = false := Bool.eq_false_iff.mpr hnot
    obtain ⟨⟨doOutput, u⟩, hu, hrest⟩ := bind_eq_ok.mp htext
    -- The text is taken, or the state does not take a FIN either.
    obtain ⟨k', m', hle, hlt, hend, hinv, htakes, hrem, hstate⟩ : ∃ k' m', k ≤ k' ∧ k' < k + 2 ^ 31 ∧
        (k + p.length ≤ k' ∧ k' ≤ stream.length ∨
          u.inState [.closed, .listen, .synSent] = true) ∧
        RecvInv irs stream k' m' u ∧ Takes stream k k' s u ∧ u.removed = s.removed ∧
        u.state = s.state := by
      split at hu
      · obtain ⟨k', m', hle, hlt, hend, hinv, htakes, hrem, hstate⟩ :=
          h.takeText hopen hseg.agrees hseg.short hseg.inside hu
        exact ⟨k', m', by omega, hlt, .inl ⟨hle, hend⟩, hinv, htakes, hrem, hstate⟩
      · rename_i hother
        cases hu
        refine ⟨k, m, Nat.le_refl _, by omega, .inr ?_, h, .refl rfl, rfl, rfl⟩
        cases hs : s.state <;> simp_all [Tcb.inState]
    have hlive' : u.removed = false := hrem.trans hlive
    rw [← Except.ok.inj hrest]
    split
    · rename_i hflag
      rw [add_wrap]
      rcases takeFin_cases (wrap (irs.raw + 1) (k + p.length)) doOutput d u (hstate ▸ hst) with
        hkeeps | ⟨hfin, hin, v, hrcv, hcalm, -, ⟨heq, hdone⟩ | ⟨heq, hwait, -⟩⟩
      · exact ⟨k', hinv.progress_of_takes hle htakes hlive' hkeeps,
          not_removed (hkeeps.removed.trans hlive')⟩
      all_goals
        obtain ⟨hpos, hpos'⟩ := hend.resolve_right (by simp [hin])
        -- The FIN counts only when the text before it is complete.
        have htotal := hseg.fin hflag
        have hk' : k' = stream.length := by
          rw [hinv.next] at hfin
          have := wrap_inj hfin (by omega) (by omega)
          omega
        subst hk'
        rw [hfin, hinv.next, rcv_finReceived] at hrcv
        rw [heq]
      · obtain ⟨new, hdata, htake⟩ := htakes
        have hfinal := hinv.finTaken hrcv hdone
        have hvlive : v.removed = false := hcalm.removed.trans hlive'
        refine ⟨stream.length + 1, ⟨by omega, hfinal.next, Nat.le_refl _, fun _ => rfl,
          .inl ⟨hvlive, ⟨m', hfinal⟩, new, by rw [hrcv]; exact hdata, ?_⟩⟩, not_removed hvlive⟩
        rw [← htake, List.take_of_length_le (by omega), List.take_of_length_le (by omega)]
      · exact ⟨stream.length + 1, ⟨by omega, congrArg Receive.next hrcv, Nat.le_refl _,
          fun _ => rfl, .inr ⟨rfl, rfl⟩⟩, fun _ => ⟨hstate ▸ hwait, hflag, rfl, htotal⟩⟩
    · have hkeeps := keeps_finishInput doOutput d u
      exact ⟨k', hinv.progress_of_takes hle htakes hlive' hkeeps,
        not_removed (hkeeps.removed.trans hlive')⟩

/-- What happens before the text leaves the data alone. -/
theorem Progress.after {k' : Nat} {u : Tcb} (h : Progress irs stream k k' u t)
    (hdata : u.rcv.data = s.rcv.data) : Progress irs stream k k' s t := by
  refine ⟨h.le, h.next, h.bound, h.fin, h.rest.imp_left fun ⟨hlive, hinv, htakes⟩ => ⟨hlive, hinv, ?_⟩⟩
  rw [Takes, ← hdata]
  exact htakes

/-- A segment in order that is no reset is taken into the stream. -/
theorem RecvInv.handleSynchronized {th : TcbHdr} {p : Packet} (h : RecvInv irs stream k m s)
    (hlive : s.removed = false) (hst : s.state ≠ .synReceived) (hseg : InOrderText stream k th p)
    (hreset : ¬Resets th s) (hack : th.fAck = true)
    (hh : s.handleSynchronized tso th (wrap (irs.raw + 1) k) p = .ok t) :
    ∃ k', Progress irs stream k k' s t ∧ (t.removed = true → Removal stream k k' s th p) := by
  obtain ⟨v, d, hkeeps, hsame, hrest⟩ := handleSynchronized_ok hh
  have hv := h.keeps hkeeps
  have hvlive : v.removed = false := hkeeps.removed.trans hlive
  have hvdata : v.rcv.data = s.rcv.data := congrArg Receive.data hkeeps.rcv
  -- The segment ends in the acknowledgment of data, in that of our FIN, or in its text and FIN.
  rcases hrest with rfl | ⟨r, hret, rfl⟩ | ⟨w, hgo, htext⟩
  · exact ⟨k, hv.progress hvlive hvdata, not_removed hvlive⟩
  · rcases ackFin_cases th.ack d v with ⟨w, hw, -⟩ | hstays | ⟨w, -, hrcv, hwst, hfinAck, hfin⟩
    · rw [hw] at hret
      cases hret
    · rw [hstays] at hret
      cases hret
      exact ⟨k, hv.progress hvlive hvdata, not_removed hvlive⟩
    · have hnext : w.rcv.next = wrap (irs.raw + 1) k := hrcv ▸ hv.next
      -- The acknowledgment of our FIN ends the connection in CLOSING and in LAST_ACK.
      rcases hfin with ⟨hclosing, heq⟩ | ⟨hlast, heq⟩
      · rw [heq] at hret
        cases hret
        obtain rfl := hsame (by simp [Tcb.inState, ← hkeeps.state, hclosing])
        refine ⟨k, progress_of_removed hnext h.le (fun _ => hv.fin.mp ?_) rfl rfl,
          fun _ => .reset (.inr ⟨hack, ?_, hfinAck⟩) rfl⟩
        · simp [finConsumed, Tcb.inState, hclosing]
        · simp [Tcb.inState, hclosing]
      · rw [heq] at hret
        cases hret
        obtain rfl := hsame (by simp [Tcb.inState, ← hkeeps.state, hlast])
        refine ⟨k, progress_of_removed hnext h.le (fun hfalse => by cases hfalse) rfl rfl,
          fun _ => .reset (.inr ⟨hack, ?_, hfinAck⟩) rfl⟩
        simp [Tcb.inState, hlast]
  · rcases ackFin_cases th.ack d v with
      ⟨w', hw, hcalm, hrcv, -, hstate⟩ | hother | ⟨w', -, -, -, -, hother⟩
    · rw [hw] at hgo
      cases hgo
      -- FIN_WAIT_1 may have become FIN_WAIT_2 before the text is taken.
      have hwinv : RecvInv irs stream k m w := by
        rcases hstate with rfl | ⟨hfw, hfw', -⟩
        · exact hv
        · refine hv.same (congrArg Receive.next hrcv) (congrArg Receive.window hrcv)
            (congrArg Receive.outOfOrder hrcv) (by simp [hfw']) ?_
          simp [finConsumed, Tcb.inState, hfw, hfw']
      have hwst : w.state ≠ .synReceived := by
        rcases hstate with rfl | ⟨-, hfw', -⟩
        · rw [hkeeps.state]
          exact hst
        · simp [hfw']
      obtain ⟨k', hprogress, hremoved⟩ :=
        hwinv.textAndFin (hcalm.removed.trans hvlive) hwst hseg htext
      refine ⟨k', hprogress.after ((congrArg Receive.data hrcv).trans hvdata), fun hgone => ?_⟩
      obtain ⟨hwait, hflag, hk', htotal⟩ := hremoved hgone
      refine .lastFin ⟨hreset, hack, hflag, ?_⟩ hk' htotal
      rcases hstate with rfl | ⟨hfw, -, hfinAck⟩
      · exact .inl (hkeeps.state ▸ hwait)
      · obtain rfl := hsame (by simp [Tcb.inState, ← hkeeps.state, hfw])
        exact .inr ⟨hfw, hfinAck⟩
    · rw [hother] at hgo
      cases hgo
    · rcases hother with ⟨-, heq⟩ | ⟨-, heq⟩
      all_goals
        rw [heq] at hgo
        cases hgo

/-- A segment that resets the connection does nothing else. -/
theorem handleInOrder_of_resets {th : TcbHdr} {segSeq : TcpSeq} {p : Packet} (h : Resets th s)
    (hh : s.handleInOrder tso th segSeq p = .ok t) :
    t = s.resolveConnectDone.doReset ∨ t = s.doReset ∨ t = s.doClosed := by
  rcases h with ⟨hrst, hstate⟩ | hsyn
  · have hin : s.inState [.synReceived] = true ∨
        s.inState [.established, .finWait1, .finWait2, .closeWait] = true ∨
        s.inState [.closing, .lastAck, .timeWait] = true := by
      revert hstate
      simp only [Tcb.inState]
      cases s.state <;> decide
    rw [Tcb.handleInOrder, hrst, Bool.true_and, Bool.true_and, Bool.true_and] at hh
    split at hh
    · exact .inl (Except.ok.inj hh).symm
    · rename_i hreceived
      split at hh
      · exact .inr (.inl (Except.ok.inj hh).symm)
      · rename_i hopen
        rw [if_pos ((hin.resolve_left hreceived).resolve_left hopen)] at hh
        exact .inr (.inr (Except.ok.inj hh).symm)
  · unfold Tcb.handleInOrder at hh
    split at hh
    · exact .inl (Except.ok.inj hh).symm
    · split at hh
      · exact .inr (.inl (Except.ok.inj hh).symm)
      · split at hh
        · exact .inr (.inr (Except.ok.inj hh).symm)
        · exact .inr (.inl (Except.ok.inj hh).symm)

/-- A segment in order is taken into the stream, or it removes the connection. -/
theorem RecvInv.handleInOrder {th : TcbHdr} {p : Packet} (h : RecvInv irs stream k m s)
    (hlive : s.removed = false) (hseg : InOrderText stream k th p)
    (hh : s.handleInOrder tso th (wrap (irs.raw + 1) k) p = .ok t) :
    ∃ k', Progress irs stream k k' s t ∧ (t.removed = true → Removal stream k k' s th p) := by
  by_cases hreset : Resets th s
  · -- A reset removes the connection and takes nothing.
    have hgone : t.rcv.next = s.rcv.next ∧ finConsumed t = false ∧ t.removed = true ∧
        t.rcv.data = [] := by
      rcases handleInOrder_of_resets hreset hh with rfl | rfl | rfl
      · exact ⟨rfl, rfl, rfl, rfl⟩
      · exact ⟨rfl, rfl, rfl, rfl⟩
      · exact ⟨rfl, rfl, rfl, rfl⟩
    obtain ⟨hnext, hfin, hremoved, hdata⟩ := hgone
    exact ⟨k, progress_of_removed (hnext.trans h.next) h.le (fun htrue => by
      rw [hfin] at htrue
      cases htrue) hremoved hdata, fun _ => .reset (.inl hreset) rfl⟩
  rcases handleInOrder_cases hh with
    ⟨hrst, hin, -⟩ | ⟨hrst, hin, -⟩ | ⟨hrst, hin, -⟩ | ⟨hsyn, -⟩ | rfl | ⟨hack, htext⟩
  · exact absurd (.inl ⟨hrst, by simp [Tcb.inState, hin]⟩) hreset
  · refine absurd (.inl ⟨hrst, ?_⟩) hreset
    revert hin
    simp only [Tcb.inState]
    cases s.state <;> decide
  · refine absurd (.inl ⟨hrst, ?_⟩) hreset
    revert hin
    simp only [Tcb.inState]
    cases s.state <;> decide
  · exact absurd (.inr hsyn) hreset
  · exact ⟨k, h.progress hlive rfl, not_removed hlive⟩
  · unfold Tcb.ackAndText at htext
    rcases ackSynReceived_cases th.ack s with ⟨hst, hgo⟩ | ⟨hst, -, hgo⟩ | ⟨-, -, hret⟩
    · simp only [hgo] at htext
      exact h.handleSynchronized hlive hst hseg hreset hack htext
    · simp only [hgo] at htext
      have hsyn : RecvInv irs stream k m (synAcked s) := by
        refine h.same rfl rfl rfl (fun hst => by cases hst) ?_
        simp [finConsumed, Tcb.inState, synAcked, Tcb.doEstablished, Tcb.resolveConnectDone, hst]
      have hreset' : ¬Resets th (synAcked s) :=
        mt (Or.imp_left fun hrst => ⟨hrst.1, by simp [Tcb.inState, hst]⟩) hreset
      obtain ⟨k', hprogress, hremoved⟩ :=
        hsyn.handleSynchronized hlive (fun hst => by cases hst) hseg hreset' hack htext
      refine ⟨k', hprogress.after rfl, fun hgone => ?_⟩
      -- ESTABLISHED, where the handshake leads to, is not a state in which a segment removes it.
      cases hremoved hgone with
      | reset hends hk =>
        rcases hends with hreset | ⟨-, hin, -⟩
        · exact absurd hreset hreset'
        · cases hin
      | lastFin hlast =>
        rcases hlast.2.2.2 with hfw | ⟨hfw, -⟩
        · cases hfw
        · cases hfw
    · simp only [hret] at htext
      cases htext
      exact ⟨k, h.progress hlive rfl, not_removed hlive⟩

/-! ### Any segment of the stream -/

/-- The segment with the header `th` and the payload `p` belongs to the stream, and it arrives while
`RCV.NXT` is at position `k`. The segment of an IP datagram is shorter than `2^16` bytes, so its end
is less than `2^31` ahead when its start is at most `2^31 - 2^16` ahead. -/
structure OfStream (irs : TcpSeq) (stream : List UInt8) (k : Nat) (th : TcbHdr) (p : Packet)
    (x : Int) : Prop where
  seq : th.seq = irs.add (1 + x)
  near : k - (2 ^ 31 - 2 ^ 16) ≤ x ∧ x ≤ k + (2 ^ 31 - 2 ^ 16)
  ends : x + p.length < k + 2 ^ 31
  payload : p ≠ [] → 0 ≤ x ∧ x + p.length ≤ stream.length ∧
    p = (stream.drop x.toNat).take p.length
  fin : th.fFin = true → x + p.length = stream.length

/-- A segment of the stream carries its bytes. -/
theorem OfStream.agrees {th : TcbHdr} {p : Packet} {x : Int} (h : OfStream irs stream k th p x) :
    Agrees (byteAt stream) (x, p) := by
  by_cases hempty : p = []
  · rw [hempty]
    rfl
  · obtain ⟨hpos, hend, hp⟩ := h.payload hempty
    obtain ⟨n, rfl⟩ : ∃ n : Nat, x = n := ⟨x.toNat, by omega⟩
    show p = slice (byteAt stream) n p.length
    rw [slice_byteAt stream (by omega)]
    exact hp

/-- The part of a segment from `RCV.NXT` on. -/
theorem OfStream.inOrder {th : TcbHdr} {p : Packet} {x : Int} (h : OfStream irs stream k th p x)
    (hx : x ≤ k) (hcut : k ≤ x + p.length) : InOrderText stream k th (p.drop (k - x).toNat) := by
  have hends := h.ends
  have hlen : (p.drop (k - x).toNat).length = p.length - (k - x).toNat := List.length_drop
  have hstart : x + ((k - x).toNat : Nat) = (k : Int) := by omega
  refine ⟨?_, by omega, fun hpos => ?_, fun hflag => ?_⟩
  · have hagrees := Agrees.drop h.agrees (k - x).toNat
    rwa [hstart] at hagrees
  · have hne : p ≠ [] := fun hempty => by
      rw [hempty] at hpos
      simp at hpos
    have := (h.payload hne).2.1
    omega
  · have := h.fin hflag
    omega

/-- An acceptable segment starts in the window, or its last byte is in the window. -/
theorem RecvInv.acceptable_bounds (h : RecvInv irs stream k m s) {x : Int} {len : Nat}
    (hnear : k - (2 ^ 31 - 2 ^ 16) ≤ x ∧ x ≤ k + (2 ^ 31 - 2 ^ 16)) (hend : x + len < k + 2 ^ 31)
    (hacc : s.rcv.segmentAcceptable (wrap (irs.raw + 1) x) len = true) :
    k ≤ x ∨ (0 < len ∧ k ≤ x + len - 1) := by
  have hle : ∀ y : Int, -2 ^ 31 ≤ y - k → y - k < 2 ^ 31 → ∀ b,
      ((wrap (irs.raw + 1) k).le (wrap (irs.raw + 1) y) && b) = true → k ≤ y := by
    intro y hlo hhi b hy
    rw [Bool.and_eq_true, le_wrap _ _ _ hlo hhi, decide_eq_true_eq] at hy
    exact hy.1
  have hlast : ((wrap (irs.raw + 1) x).add len).add (-1) = wrap (irs.raw + 1) (x + len - 1) := by
    rw [add_wrap, add_wrap]
    rfl
  have hopen : s.rcv.window ≠ 0 := fun hzero => by
    have := h.window.1
    rw [hzero] at this
    cases this
  simp only [Receive.segmentAcceptable, h.next, hlast] at hacc
  rw [if_neg (fun hclosed => hopen hclosed.2)] at hacc
  split at hacc
  · exact .inl (hle x (by omega) (by omega) _ hacc)
  · split at hacc
    · rename_i hpos
      rcases Bool.or_eq_true _ _ |>.mp hacc with hfirst | hsecond
      · exact .inl (hle x (by omega) (by omega) _ hfirst)
      · exact .inr ⟨hpos.1, hle (x + len - 1) (by omega) (by omega) _ hsecond⟩
    · cases hacc

/-- A segment that starts behind `RCV.NXT` goes to the out-of-order map. -/
theorem RecvInv.insertOutOfOrder {rcv : Receive} {p : Packet} {x : Int} {th : TcbHdr}
    (h : RecvInv irs stream k m s) (hseg : OfStream irs stream k th p x) (hx : k < x)
    (hins : s.rcv.insertOutOfOrder (wrap (irs.raw + 1) x) p = .ok rcv) :
    rcv.data = s.rcv.data ∧ ∃ m', RecvInv irs stream k m' { s with rcv := rcv } := by
  have hin : InWindow k (x, p) := ⟨by omega, hseg.ends⟩
  obtain ⟨m', hm', hre⟩ := merge_reassembles
    (⟨h.separated, SameExtent.refl _, h.agrees⟩ : Reassembles (byteAt stream) m m) x p hseg.agrees
  -- Everything lies within 2^31 of `RCV.NXT`, so the merge goes as over the integers.
  have hmerge : merge s.rcv.outOfOrder (wrap (irs.raw + 1) x) p = .ok (wrapMap (irs.raw + 1) m') := by
    rw [h.map, merge_wrap (irs.raw + 1) k m x p h.inWindow hin, hm']
    rfl
  obtain ⟨map, hmap, hret⟩ := bind_eq_ok.mp hins
  rw [hmerge] at hmap
  cases hmap
  cases hret
  refine ⟨rfl, m', h.next, h.window, rfl, hre.separated, hre.agrees, ?_, ?_, ?_, h.synchronized,
    h.le, h.fin⟩
  · intro seg hmem
    have hall : ∀ seg ∈ (x, p) :: m, (k : Int) ≤ seg.1 ∧ Seg.stop seg ≤ k + 2 ^ 31 - 1 := by
      intro seg hmem
      rcases List.mem_cons.mp hmem with rfl | hmem
      · exact ⟨hin.1, by have := hin.2; omega⟩
      · obtain ⟨hlo, hhi⟩ := h.inWindow seg hmem
        exact ⟨hlo, by omega⟩
    obtain ⟨hlo, hhi⟩ := hre.extent.bounds hall seg hmem
    exact ⟨hlo, by omega⟩
  · -- What a merged segment starts with is one of the old ones or the new one.
    intro hk seg hmem
    obtain ⟨old, hold, hstart, -⟩ :=
      (hre.extent.2 seg.1).mp ⟨seg, hmem, le_refl _, Seg.start_le_stop seg⟩
    rcases List.mem_cons.mp hold with rfl | hold
    · exact lt_of_lt_of_le hx hstart
    · exact lt_of_lt_of_le (h.ahead hk old hold) hstart
  · -- An empty segment covers nothing, and the others lie in the stream.
    intro y hy
    rcases (covers_cons _ _ _).mp ((hre.extent.1 y).mp hy) with ⟨hlo, hhi⟩ | hcovers
    · simp only [Seg.stop_mk] at hlo hhi
      have hne : p ≠ [] := fun hempty => by
        rw [hempty, List.length_nil] at hhi
        omega
      have := (hseg.payload hne).2.1
      omega
    · exact h.inside y hcovers

/-- A segment of the stream takes the connection forward, or removes it. -/
theorem RecvInv.inputHandleOtherState {th : TcbHdr} {p : Packet} {x : Int}
    (h : RecvInv irs stream k m s) (hlive : s.removed = false)
    (hseg : OfStream irs stream k th (p.drop (th.dataOffset * 4)) x)
    (hh : s.inputHandleOtherState tso th p = .ok t) :
    ∃ k', Progress irs stream k k' s t ∧
      (t.removed = true → ∃ r, InSequence s th p r ∧ Removal stream k k' s th r) := by
  obtain ⟨q, hq, hrest⟩ := inputHandleOtherState_ok hh
  have hpayload : q = p.drop (th.dataOffset * 4) := by
    unfold trimFront at hq
    split at hq
    · cases hq
      rfl
    · cases hq
  rw [← hpayload] at hseg
  -- A segment that is not acceptable is answered with an ACK, and nothing is received.
  rcases hrest with ⟨-, rfl⟩ | ⟨hacc, segSeq, r, htrim, hrest⟩
  · exact ⟨k, (h.keeps (keeps_output s)).progress ((removed_output s).trans hlive)
      (congrArg Receive.data (rcv_output s)), not_removed ((removed_output s).trans hlive)⟩
  · have hsequence (hseq : segSeq = s.rcv.next) : InSequence s th p r := ⟨q, hq, hacc, hseq ▸ htrim⟩
    rw [hseg.seq, seq_eq_wrap] at hacc htrim
    have hbounds := h.acceptable_bounds hseg.near hseg.ends hacc
    have hnear := hseg.near
    unfold Receive.trimDuplicate at htrim
    rw [h.next, lt_wrap _ _ _ (by omega) (by omega)] at htrim
    by_cases hold : x < k
    · -- The segment starts before `RCV.NXT`: the rest of it is in sequence.
      rw [if_pos (by simpa using hold)] at htrim
      have hdup : min ((wrap (irs.raw + 1) k).raw - (wrap (irs.raw + 1) x).raw).toNat q.length
          = (k - x).toNat := by
        rw [raw_sub_wrap, BitVec.toNat_ofInt]
        omega
      have hstart : x + ((k - x).toNat : Nat) = (k : Int) := by omega
      simp only [hdup, add_wrap, hstart] at htrim
      cases htrim
      rcases hrest with ⟨hseq, hin⟩ | ⟨hne, -⟩
      · obtain ⟨k', hprogress, hremoved⟩ :=
          h.handleInOrder hlive (hseg.inOrder (by omega) (by omega)) hin
        exact ⟨k', hprogress, fun hgone => ⟨_, hsequence hseq, hremoved hgone⟩⟩
      · exact absurd h.next.symm hne
    · rw [if_neg (by simpa using hold)] at htrim
      cases htrim
      by_cases heq : x = k
      · subst heq
        rcases hrest with ⟨hseq, hin⟩ | ⟨hne, -⟩
        · have hwhole := hseg.inOrder (Int.le_refl _) (by omega)
          rw [Int.sub_self, Int.toNat_zero, List.drop_zero] at hwhole
          obtain ⟨k', hprogress, hremoved⟩ := h.handleInOrder hlive hwhole hin
          exact ⟨k', hprogress, fun hgone => ⟨_, hsequence hseq, hremoved hgone⟩⟩
        · exact absurd h.next.symm hne
      -- The segment starts behind `RCV.NXT`: it waits in the out-of-order map.
      · rcases hrest with ⟨hsame, -⟩ | ⟨-, rcv, hins, rfl⟩
        · rw [h.next] at hsame
          exact absurd (wrap_inj hsame (by omega) (by omega)) heq
        · obtain ⟨hdata, m', hinv⟩ := h.insertOutOfOrder hseg (by omega) hins
          have hout := keeps_output { s with rcv := rcv }
          exact ⟨k, (hinv.keeps hout).progress (hout.removed.trans hlive)
            ((congrArg Receive.data hout.rcv).trans hdata), not_removed (hout.removed.trans hlive)⟩

/-! ### The other events -/

/-- The step takes no text. The connection may be removed in it. -/
structure Quiet (s t : Tcb) : Prop where
  next : t.rcv.next = s.rcv.next
  fin : finConsumed t = finConsumed s
  rest : (t.removed = s.removed ∧ t.rcv.data = s.rcv.data ∧ t.rcv.window = s.rcv.window ∧
      t.rcv.outOfOrder = s.rcv.outOfOrder ∧ (t.state = .synSent → s.state = .synSent)) ∨
    (t.removed = true ∧ t.rcv.data = [])

/-- A step of the send side is quiet. -/
theorem Keeps.quiet (h : Keeps s t) : Quiet s t :=
  ⟨congrArg Receive.next h.rcv, finConsumed_of_state h.state,
    .inl ⟨h.removed, congrArg Receive.data h.rcv, congrArg Receive.window h.rcv,
      congrArg Receive.outOfOrder h.rcv, fun hst => h.state ▸ hst⟩⟩

/-- Waking the reader with an error is quiet. -/
theorem quiet_abortReader (s : Tcb) : Quiet s s.abortReader :=
  ⟨rfl, rfl, .inl ⟨rfl, rfl, rfl, rfl, id⟩⟩

/-- Cleaning up is quiet. -/
theorem quiet_cleanup (h : Keeps s t) : Quiet s t.cleanup := by
  refine ⟨?_, finConsumed_of_state h.state, .inr ⟨rfl, rfl⟩⟩
  show t.rcv.next = s.rcv.next
  rw [h.rcv]

/-- `close` consumes no FIN. -/
theorem closedState_finConsumed (h : t.state = closedState s.state) :
    finConsumed t = finConsumed s := by
  rw [finConsumed, finConsumed, Tcb.inState, Tcb.inState, h]
  cases s.state <;> rfl

/-- `close` is quiet. -/
theorem quiet_close (s : Tcb) : Quiet s s.close := by
  unfold Tcb.close
  split
  · exact (Keeps.refl s).quiet
  · exact ⟨rfl, rfl, .inl ⟨rfl, rfl, rfl, rfl, id⟩⟩

/-- Only a segment and a `read` change what was received. -/
theorem quiet_handle {e : TcbEvent} {o : Option OutSegment} (hseg : ∀ th p, e ≠ .segment th p)
    (hread : e ≠ .read) (hh : s.handle tso e = .ok (o, t)) : Quiet s t := by
  cases e with
  | segment th p => exact absurd rfl (hseg th p)
  | read => exact absurd rfl hread
  | send p =>
    cases hh
    rcases send_cases s p with ⟨-, heq⟩ | ⟨-, u, hkeeps, -, heq⟩
    · rw [heq]
      exact (Keeps.refl s).quiet
    · rw [heq]
      obtain ⟨hnext, hfin, hrest⟩ := hkeeps.quiet
      exact ⟨hnext, hfin, hrest⟩
  | closeRead =>
    cases hh
    exact quiet_abortReader s
  | waitForData =>
    cases hh
    unfold Tcb.waitForData
    split
    · exact (Keeps.refl s).quiet
    · exact ⟨rfl, rfl, .inl ⟨rfl, rfl, rfl, rfl, id⟩⟩
  | close =>
    cases hh
    exact quiet_close s
  | shutdownConnect =>
    cases hh
    unfold Tcb.shutdownConnect
    split
    · exact ⟨rfl, rfl, .inr ⟨rfl, rfl⟩⟩
    · obtain ⟨hnext, hfin, hrest⟩ := quiet_close s.abortReader
      exact ⟨hnext, hfin, hrest⟩
  | closeContinuation =>
    obtain ⟨u, hu, heq⟩ := map_eq_ok.mp hh
    cases heq
    have hkeeps := closeContinuation_cases hu
    have hst : t.state = closedState s.state := hkeeps.state
    refine ⟨congrArg Receive.next hkeeps.rcv, closedState_finConsumed hst,
      .inl ⟨hkeeps.removed, congrArg Receive.data hkeeps.rcv, congrArg Receive.window hkeeps.rcv,
        congrArg Receive.outOfOrder hkeeps.rcv, fun hsyn => ?_⟩⟩
    rw [hst] at hsyn
    cases hs : s.state <;> simp_all [closedState]
  | getPacket => exact (keeps_getPacket hh).quiet
  | arpQueueFull =>
    cases hh
    exact ⟨rfl, rfl, .inl ⟨rfl, rfl, rfl, rfl, id⟩⟩
  | arpTimeout =>
    cases hh
    unfold Tcb.arpTimeout
    dsimp only
    split
    · exact ⟨rfl, rfl, .inr ⟨rfl, rfl⟩⟩
    · exact ⟨rfl, rfl, .inl ⟨rfl, rfl, rfl, rfl, id⟩⟩
  | retransmit =>
    obtain ⟨u, hu, heq⟩ := map_eq_ok.mp hh
    cases heq
    -- The two limits, of the SYN and of the data, remove the connection.
    rcases retransmit_cases hu with hkeeps | ⟨-, v, hkeeps, rfl⟩ | ⟨-, v, hkeeps, rfl⟩
    · obtain ⟨hnext, hfin, hrest⟩ := hkeeps.quiet
      exact ⟨hnext, hfin, hrest⟩
    · obtain ⟨hnext, hfin, hrest⟩ := quiet_cleanup hkeeps
      exact ⟨hnext, hfin, .inr ⟨rfl, rfl⟩⟩
    · obtain ⟨hnext, hfin, hrest⟩ := quiet_cleanup hkeeps
      exact ⟨hnext, hfin, .inr ⟨rfl, rfl⟩⟩
  | persist =>
    obtain ⟨u, hu, heq⟩ := map_eq_ok.mp hh
    cases heq
    obtain ⟨hnext, hfin, hrest⟩ := (keeps_persist hu).quiet
    exact ⟨hnext, hfin, hrest⟩
  | delayedAck =>
    cases hh
    obtain ⟨hnext, hfin, hrest⟩ := (keeps_delayedAck { s with delayedAckArmed := false }).quiet
    exact ⟨hnext, hfin, hrest⟩

end

/-! ### Runs -/

/-- What was received so far is the stream up to position `k`. -/
structure ReceivesUpTo (irs : TcpSeq) (stream : List UInt8) (k : Nat) (s : Session) : Prop where
  next : s.tcb.rcv.next = irs.add (1 + k : Nat)
  bound : k ≤ stream.length + 1
  fin : finConsumed s.tcb = true → k = stream.length + 1
  returned : s.received <+: stream.take k
  /-- Until the connection is removed, nothing is missing. -/
  exact : s.tcb.removed = false → s.received ++ s.tcb.rcv.data.flatten = stream.take k ∧
    (k = stream.length + 1 → finConsumed s.tcb = true)

/-- The position of `RCV.NXT`, while the connection is in `_tcbs`. -/
def rcvPos (s : Session) : Nat :=
  (s.received ++ s.tcb.rcv.data.flatten).length + if finConsumed s.tcb then 1 else 0

/-- A segment that arrives belongs to the stream. -/
def ConsistentEvent (irs : TcpSeq) (stream : List UInt8) (s : Session) : TcbEvent → Prop
  | .segment th p => ∃ x, OfStream irs stream (rcvPos s) th (p.drop (th.dataOffset * 4)) x
  | _ => True

/-- The invariant of a run. -/
structure RecvSession (irs : TcpSeq) (stream : List UInt8) (k : Nat) (s : Session) : Prop where
  upTo : ReceivesUpTo irs stream k s
  live : s.tcb.removed = false → ∃ m, RecvInv irs stream k m s.tcb
  gone : s.tcb.removed = true → s.tcb.rcv.data = []

section
variable {irs : TcpSeq} {stream : List UInt8} {k : Nat} {s t : Session} {tso : Bool} {e : TcbEvent}

/-- The position of `RCV.NXT` in the stream. -/
theorem RecvSession.rcvPos (h : RecvSession irs stream k s) (hlive : s.tcb.removed = false) :
    rcvPos s = k := by
  obtain ⟨hexact, hback⟩ := h.upTo.exact hlive
  have hbound := h.upTo.bound
  unfold Net.rcvPos
  rw [hexact, List.length_take]
  split
  · rename_i hfin
    have := h.upTo.fin hfin
    omega
  · rename_i hfin
    have hne : k ≠ stream.length + 1 := fun heq => hfin (hback heq)
    omega

/-- The session after a step of the connection that is not a `read`. -/
theorem RecvSession.progress {k' : Nat} {u : Tcb} (h : RecvSession irs stream k s)
    (hlive : s.tcb.removed = false) (hp : Progress irs stream k k' s.tcb u)
    (hu : t.tcb = u) (hrec : t.received = s.received) : RecvSession irs stream k' t := by
  subst hu
  obtain ⟨hexact, -⟩ := h.upTo.exact hlive
  have hpre : s.received <+: stream.take k' :=
    h.upTo.returned.trans (List.take_prefix_take_left hp.le)
  refine ⟨⟨hp.next.trans (seq_nat irs k').symm, hp.bound, hp.fin, hrec ▸ hpre, fun hlive' => ?_⟩,
    fun hlive' => ?_, fun hremoved => ?_⟩
  · rcases hp.rest with ⟨-, ⟨m, hinv⟩, new, hdata, htake⟩ | ⟨hremoved, -⟩
    · refine ⟨?_, hinv.fin.mpr⟩
      rw [hrec, hdata, ← List.append_assoc, hexact, htake]
    · rw [hlive'] at hremoved
      cases hremoved
  · rcases hp.rest with ⟨-, hinv, -⟩ | ⟨hremoved, -⟩
    · exact hinv
    · rw [hlive'] at hremoved
      cases hremoved
  · rcases hp.rest with ⟨hlive', -⟩ | ⟨-, hdata⟩
    · rw [hremoved] at hlive'
      cases hlive'
    · exact hdata

/-- A quiet step keeps the invariant of the session. -/
theorem RecvSession.quiet {u : Tcb} (h : RecvSession irs stream k s) (hq : Quiet s.tcb u)
    (hu : t.tcb = u) (hrec : t.received = s.received) : RecvSession irs stream k t := by
  subst hu
  obtain ⟨⟨hnext, hbound, hfin, hreturned, hexact⟩, hinv, hgone⟩ := h
  refine ⟨⟨hq.next.trans hnext, hbound, hq.fin ▸ hfin, hrec ▸ hreturned, fun hlive => ?_⟩,
    fun hlive => ?_, fun hremoved => ?_⟩
  · rcases hq.rest with ⟨hrem, hdata, -⟩ | ⟨hremoved, -⟩
    · rw [hrec, hdata, hq.fin]
      exact hexact (hrem ▸ hlive)
    · rw [hlive] at hremoved
      cases hremoved
  · rcases hq.rest with ⟨hrem, -, hwindow, hmap, hsyn⟩ | ⟨hremoved, -⟩
    · obtain ⟨m, hm⟩ := hinv (hrem ▸ hlive)
      exact ⟨m, hm.same hq.next hwindow hmap (fun hst => hm.synchronized (hsyn hst)) hq.fin⟩
    · rw [hlive] at hremoved
      cases hremoved
  · rcases hq.rest with ⟨hrem, hdata, -⟩ | ⟨-, hdata⟩
    · rw [hdata]
      exact hgone (hrem ▸ hremoved)
    · exact hdata

/-- A `read` moves the data to what was returned. -/
theorem RecvSession.read (h : RecvSession irs stream k s) (htcb : t.tcb = s.tcb.read.2)
    (hrec : t.received = s.received ++ s.tcb.read.1) : RecvSession irs stream k t := by
  -- What is returned and what is left are together the same bytes.
  have hflat : t.received ++ t.tcb.rcv.data.flatten = s.received ++ s.tcb.rcv.data.flatten := by
    rw [hrec, htcb]
    simp [Tcb.read]
  have hfin : finConsumed t.tcb = finConsumed s.tcb := finConsumed_of_state (by rw [htcb]; rfl)
  have hrem : t.tcb.removed = s.tcb.removed := by
    rw [htcb]
    rfl
  have hnext : t.tcb.rcv.next = s.tcb.rcv.next := by
    rw [htcb]
    rfl
  have hdata : t.tcb.rcv.data = [] := by
    rw [htcb]
    rfl
  refine ⟨⟨hnext.trans h.upTo.next, h.upTo.bound, hfin ▸ h.upTo.fin, ?_, fun hlive => ?_⟩,
    fun hlive => ?_, fun _ => hdata⟩
  · rw [hdata, List.flatten_nil, List.append_nil] at hflat
    rw [hflat]
    cases hlive : s.tcb.removed with
    | false =>
      have hexact := (h.upTo.exact hlive).1
      exact hexact ▸ List.prefix_refl _
    | true =>
      rw [h.gone hlive, List.flatten_nil, List.append_nil]
      exact h.upTo.returned
  · rw [hflat, hfin]
    exact h.upTo.exact (hrem ▸ hlive)
  · obtain ⟨m, hm⟩ := h.live (hrem ▸ hlive)
    refine ⟨m, hm.same hnext (by rw [htcb]; rfl) (by rw [htcb]; rfl) ?_ hfin⟩
    rw [htcb]
    exact hm.synchronized

/-- Every step on segments of the stream goes on in the stream. -/
theorem RecvSession.step (h : RecvSession irs stream k s) (hok : ConsistentEvent irs stream s e)
    (hstep : s.step tso e = some t) : ∃ k', k ≤ k' ∧ RecvSession irs stream k' t := by
  obtain ⟨-, hen, ⟨f, -, rfl⟩ | ⟨o, u, hu, rfl⟩⟩ := step_cases hstep
  · exact ⟨k, Nat.le_refl _, ⟨h.upTo.next, h.upTo.bound, h.upTo.fin, h.upTo.returned, h.upTo.exact⟩,
      h.live, h.gone⟩
  · by_cases hseg : ∃ th p, e = .segment th p
    · obtain ⟨th, p, rfl⟩ := hseg
      have hlive : s.tcb.removed = false := by simpa [Tcb.enabled] using hen
      obtain ⟨x, hx⟩ := hok
      rw [h.rcvPos hlive] at hx
      obtain ⟨m, hm⟩ := h.live hlive
      obtain ⟨v, hv, heq⟩ := map_eq_ok.mp hu
      cases heq
      rw [Tcb.inputHandle, if_neg hm.synchronized] at hv
      obtain ⟨k', hprogress, -⟩ := hm.inputHandleOtherState hlive hx hv
      exact ⟨k', hprogress.le, h.progress hlive hprogress rfl (List.append_nil _)⟩
    · by_cases hread : e = .read
      · subst hread
        cases hu
        exact ⟨k, Nat.le_refl _, h.read rfl rfl⟩
      · have hquiet := quiet_handle (fun th p heq => hseg ⟨th, p, heq⟩) hread hu
        refine ⟨k, Nat.le_refl _, h.quiet hquiet rfl ?_⟩
        cases e <;> first | exact List.append_nil _ | exact absurd rfl hread

/-- A run keeps the invariant, and `RCV.NXT` moves forward in it. -/
theorem RecvSession.run {es : List TcbEvent} (h : RecvSession irs stream k s)
    (hok : Guarded (Session.step tso) (ConsistentEvent irs stream) s es)
    (hrun : Lib.run (Session.step tso) s es = some t) : ∃ k', k ≤ k' ∧ RecvSession irs stream k' t := by
  induction es generalizing k s with
  | nil =>
    cases hrun
    exact ⟨k, Nat.le_refl _, h⟩
  | cons e es ih =>
    obtain ⟨u, hu, hrest⟩ := run_cons.mp hrun
    obtain ⟨hevent, hlater⟩ := hok u hu
    obtain ⟨k₁, hle, hinv⟩ := h.step hevent hu
    obtain ⟨k₂, hle', hinv'⟩ := ih hinv hlater hrest
    exact ⟨k₂, Nat.le_trans hle hle', hinv'⟩

end

/-- The window scale of a receive side is the one that the option sets, or none. -/
def ScaleKnown (o : TcpOption) : Prop := o.localWinScale = 0 ∨ o.localWinScale = 7

/-- The window scale is known after a choice when it is known after both sides. -/
theorem ScaleKnown.ite {c : Prop} [Decidable c] {o o' : TcpOption} (h : c → ScaleKnown o)
    (h' : ¬c → ScaleKnown o') : ScaleKnown (if c then o else o') := by
  split
  · exact h ‹_›
  · exact h' ‹_›

/-- The loop over the options keeps the window scale known. -/
theorem scaleKnown_parseLoop (bytes : List UInt8) (stop rounds beg : Nat) (o : TcpOption)
    (h : ScaleKnown o) : ScaleKnown (TcpOption.parseLoop bytes stop rounds beg o) := by
  induction rounds generalizing beg o with
  | zero => exact h
  | succ rounds ih =>
    rw [TcpOption.parseLoop]
    -- Only the window scale option sets the scale.
    exact ScaleKnown.ite (fun _ => h) fun _ => ScaleKnown.ite (fun _ => h) fun _ =>
      ScaleKnown.ite (fun _ => ih _ _ h) fun _ => ScaleKnown.ite (fun _ => ih _ _ (.inr rfl)) fun _ =>
      ScaleKnown.ite (fun _ => ih _ _ h) fun _ => ScaleKnown.ite (fun _ => ih _ _ h) fun _ =>
      ScaleKnown.ite (fun _ => h) fun _ => ScaleKnown.ite (fun _ => h) fun _ => ih _ _ h

/-- A session that a listener opened starts at the first byte. -/
theorem recvSession_of_passiveOpen {th : TcbHdr} {s : Session} (stream : List UInt8)
    (h : Session.PassiveOpen th s) : RecvSession th.seq stream 0 s := by
  obtain ⟨g, p, isn, t, ht, rfl⟩ := h
  obtain ⟨options, -, hret⟩ := bind_eq_ok.mp ht
  cases hret
  dsimp only [Tcb.doSynReceived]
  have hinv : RecvInv th.seq stream 0 []
      { Tcb.initFromOptions th options (Tcb.doSetupIsn
        { Tcb.create g with
          rcv := { (Tcb.create g).rcv with next := th.seq.add 1, initial := th.seq } } isn) with
        state := .synReceived } := by
    refine ⟨?_, ?_, rfl, List.Pairwise.nil, by simp, by simp, by simp, by simp,
      (fun hst => nomatch hst), Nat.zero_le _, by simp [finConsumed, Tcb.inState]⟩
    · exact seq_nat th.seq 0
    · have hscale : ScaleKnown (TcpOption.parse {} options (th.dataOffset * 4 - TcpHdr.len)) :=
        scaleKnown_parseLoop _ _ _ _ _ (.inl rfl)
      show 0 < (29200 <<< (TcpOption.parse {} options _).localWinScale.toNat : BitVec 32).toNat ∧
        (29200 <<< (TcpOption.parse {} options _).localWinScale.toNat : BitVec 32).toNat < 2 ^ 30
      -- The window scale is 0 or 7, and the first window is positive with both.
      rcases hscale with hscale | hscale
      · rw [hscale]
        decide
      · rw [hscale]
        decide
  have hout := hinv.keeps (keeps_output _)
  refine ⟨⟨hout.next.trans (seq_nat th.seq 0).symm, Nat.zero_le _, hout.fin.mp, List.nil_prefix,
    fun _ => ⟨?_, hout.fin.mpr⟩⟩, fun _ => ⟨[], hout⟩, fun hremoved => ?_⟩
  · show List.flatten (Tcb.output _).rcv.data = []
    rw [rcv_output]
    rfl
  · rw [removed_output] at hremoved
    cases hremoved

/-- Take a connection that accepts the SYN with the header `th`, and a run in which every segment that
arrives belongs to the stream of the peer. In each state the user has read, or can still read, exactly
the stream up to the position of `RCV.NXT`, until the connection is removed. Then what was read stays a
prefix of it. The FIN is taken only behind the whole stream, and `RCV.NXT` never moves back. -/
theorem receive_follows {th : TcbHdr} {stream : List UInt8} {s t u : Session} {tso : Bool}
    {es es' : List TcbEvent} (hopen : Session.PassiveOpen th s)
    (hok : Guarded (Session.step tso) (ConsistentEvent th.seq stream) s (es ++ es'))
    (ht : run (Session.step tso) s es = some t) (hu : run (Session.step tso) t es' = some u) :
    ∃ k k', k ≤ k' ∧ ReceivesUpTo th.seq stream k t ∧ ReceivesUpTo th.seq stream k' u := by
  obtain ⟨hfirst, hrest⟩ := hok.append
  obtain ⟨k, -, hk⟩ := (recvSession_of_passiveOpen stream hopen).run hfirst ht
  obtain ⟨k', hle, hk'⟩ := hk.run (hrest t ht) hu
  exact ⟨k, k', hle, hk.upTo, hk'.upTo⟩

/-! ### Runs on fixed input -/

/-- A header of 20 bytes with an ACK. -/
def plainHdr (seq ack : BitVec 32) (fin : Bool) : TcbHdr where
  seq := ⟨seq⟩
  dataOffset := 5
  fSyn := false
  fRst := false
  ack := ⟨ack⟩
  fFin := fin
  fAck := true
  window := 64000

/-- The SYN of a peer with the initial sequence number `2^32 - 1`. -/
def lastSyn : TcbHdr := { plainHdr 0xffffffff 0 false with fSyn := true, fAck := false }

/-- The connection that a listener opens for `lastSyn`. -/
def acceptedTcb : Tcb where
  state := .synReceived
  snd :=
    { unacknowledged := ⟨0xffffffff⟩, next := ⟨0⟩, window := 64000, windowScale := 0, mss := 536
      wl1 := ⟨0xffffffff⟩, wl2 := ⟨0⟩, initial := ⟨0xffffffff⟩, cwnd := 2144, ssthresh := 64000
      recover := ⟨0xffffffff⟩ }
  rcv := { next := ⟨0⟩, window := 29200, windowScale := 0, mss := 1460, initial := ⟨0xffffffff⟩ }
  pollActive := true
  pollRequested := true

/-- The sample connection is one that a listener opened. -/
theorem passiveOpen_acceptedTcb : Session.PassiveOpen lastSyn { tcb := acceptedTcb } :=
  ⟨acceptedTcb, List.replicate 20 0, ⟨0xffffffff⟩, acceptedTcb, by decide, rfl⟩

end Netstar.Proofs.Net
