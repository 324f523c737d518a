import Netstar.Proofs.Net.TcbReceive

/-!
# `Netstar.Proofs.Net.TcbUnread`: received bytes that `cleanup` drops

`cleanup` clears `_rcv.data`. The source calls it when a connection ends, also when it ends in order:
the FIN of the peer in FIN_WAIT_2 leads to `do_time_wait`, which drops the text of the same segment and
everything else that the user has not read yet. These bytes were acknowledged, and no one gets them.

`KeepsUnread` is the condition under which a step drops nothing. Under it the user gets exactly the
stream of the peer, also behind the end of the connection (`delivers_of_keepsUnread`).
-/

set_option autoImplicit false

namespace Netstar.Proofs.Net

open Netstar.Lib
open Netstar.Spec.Net

/-- The bytes that were received and not read. -/
def unread (s : Session) : List UInt8 := s.tcb.rcv.data.flatten

/-- What was read and what can still be read is the stream up to position `k`, and the FIN is taken only
behind the whole stream. -/
structure Delivers (irs : TcpSeq) (stream : List UInt8) (k : Nat) (s : Session) : Prop where
  next : s.tcb.rcv.next = irs.add (1 + k : Nat)
  bound : k ≤ stream.length + 1
  fin : finConsumed s.tcb = true → k = stream.length + 1
  exact : s.received ++ unread s = stream.take k

/-- The event gives the connection up. -/
def GivesUpOn (s : Tcb) : TcbEvent → Prop
  | .retransmit => synLimit s ∨ finLimit s ∨ dataLimit s
  | .shutdownConnect => s.synNeedsOn = true
  | _ => False

/-- The step does not remove the connection while bytes are unread. The FIN that ends it in FIN_WAIT_2
comes without text. -/
def KeepsUnread (s : Session) : TcbEvent → Prop
  | .segment th p => ∀ r, InSequence s.tcb th p r →
      (EndsConnection th s.tcb → unread s = []) ∧
        (TakesLastFin th s.tcb → unread s = [] ∧ r = [])
  | e => GivesUpOn s.tcb e → unread s = []

section
variable {irs : TcpSeq} {stream : List UInt8} {k : Nat} {s t : Session} {tso : Bool} {e : TcbEvent}

/-- An event other than a segment removes a connection only when it gives it up. -/
theorem givesUpOn_of_removed {s t : Tcb} {o : Option OutSegment} (hseg : ∀ th p, e ≠ .segment th p)
    (hsyn : s.state ≠ .synSent) (hh : s.handle tso e = .ok (o, t)) (hlive : s.removed = false)
    (hgone : t.removed = true) : GivesUpOn s e := by
  have hstays : t.removed = s.removed → GivesUpOn s e := fun hsame =>
    absurd (hgone.symm.trans (hsame.trans hlive)) (by decide)
  cases e with
  | segment th p => exact absurd rfl (hseg th p)
  | send p =>
    cases hh
    rcases send_cases s p with ⟨-, heq⟩ | ⟨-, u, hkeeps, -, heq⟩
    · exact hstays (by rw [heq])
    · exact hstays (by rw [heq]; exact hkeeps.removed)
  | read | closeRead | arpQueueFull =>
    cases hh
    exact hstays rfl
  | waitForData =>
    cases hh
    refine hstays ?_
    unfold Tcb.waitForData
    split
    · rfl
    · rfl
  | close =>
    cases hh
    exact hstays (close_state s).2
  | shutdownConnect =>
    cases hh
    by_cases hneeds : s.synNeedsOn = true
    · exact hneeds
    · refine hstays ?_
      rw [Tcb.shutdownConnect, if_neg hneeds]
      exact (close_state s.abortReader).2
  | closeContinuation =>
    obtain ⟨u, hu, heq⟩ := map_eq_ok.mp hh
    cases heq
    exact hstays (closeContinuation_cases hu).removed
  | getPacket => exact hstays (keeps_getPacket hh).removed
  | arpTimeout =>
    cases hh
    refine hstays ?_
    rw [Tcb.arpTimeout, if_neg (by simpa [Tcb.inState] using hsyn)]
  | retransmit =>
    obtain ⟨u, hu, heq⟩ := map_eq_ok.mp hh
    cases heq
    rcases retransmit_cases hu with hkeeps | ⟨hlimit, -⟩ | ⟨hlimit, -⟩
    · exact hstays hkeeps.removed
    · -- The connection is given up at a limit: that of the SYN, or one of the others.
      exact .inl hlimit
    · exact .inr hlimit
  | persist =>
    obtain ⟨u, hu, heq⟩ := map_eq_ok.mp hh
    cases heq
    exact hstays (keeps_persist hu).removed
  | delayedAck =>
    cases hh
    exact hstays (keeps_delayedAck { s with delayedAckArmed := false }).removed

/-- The invariant of a run that drops nothing. -/
structure Delivered (irs : TcpSeq) (stream : List UInt8) (k : Nat) (s : Session) : Prop where
  session : RecvSession irs stream k s
  exact : s.received ++ unread s = stream.take k

/-- The invariant says that the bytes are delivered. -/
theorem Delivered.delivers (h : Delivered irs stream k s) : Delivers irs stream k s :=
  ⟨h.session.upTo.next, h.session.upTo.bound, h.session.upTo.fin, h.exact⟩

/-- As long as the connection is in `_tcbs`, nothing was dropped. -/
theorem delivered_of_live (h : RecvSession irs stream k s) (hlive : s.tcb.removed = false) :
    Delivered irs stream k s :=
  ⟨h, (h.upTo.exact hlive).1⟩

/-- A segment of the stream. -/
theorem Delivered.segment {th : TcbHdr} {p : Packet} {u : Tcb} (h : Delivered irs stream k s)
    (hok : ConsistentEvent irs stream s (.segment th p)) (hkeep : KeepsUnread s (.segment th p))
    (hlive : s.tcb.removed = false) (hu : s.tcb.inputHandle tso th p = .ok u) (ht : t.tcb = u)
    (hrec : t.received = s.received) : ∃ k', k ≤ k' ∧ Delivered irs stream k' t := by
  obtain ⟨x, hx⟩ := hok
  rw [h.session.rcvPos hlive] at hx
  obtain ⟨m, hm⟩ := h.session.live hlive
  rw [Tcb.inputHandle, if_neg hm.synchronized] at hu
  obtain ⟨k', hprogress, hremoved⟩ := hm.inputHandleOtherState hlive hx hu
  have hsession := h.session.progress hlive hprogress ht hrec
  refine ⟨k', hprogress.le, ?_⟩
  cases hgone : t.tcb.removed with
  | false => exact delivered_of_live hsession hgone
  | true =>
    refine ⟨hsession, ?_⟩
    obtain ⟨r, hr, hremoval⟩ := hremoved (ht ▸ hgone)
    obtain ⟨hends, hlast⟩ := hkeep r hr
    have hread : unread s = [] → s.received = stream.take k := fun hnil => by
      rw [← h.exact, hnil, List.append_nil]
    rw [hrec, unread, hsession.gone hgone, List.flatten_nil, List.append_nil]
    cases hremoval with
    | reset hreset hk => rw [hk, hread (hends hreset)]
    | lastFin hfin hk htotal =>
      obtain ⟨hnil, rfl⟩ := hlast hfin
      -- The text before the FIN was there already, so the user has read the whole stream.
      have hend : k = stream.length := htotal
      rw [hread hnil, hk, hend, List.take_length, List.take_of_length_le (Nat.le_succ _)]

/-- Every step that keeps the unread bytes keeps the invariant. -/
theorem Delivered.step (h : Delivered irs stream k s) (hok : ConsistentEvent irs stream s e)
    (hkeep : KeepsUnread s e) (hstep : s.step tso e = some t) :
    ∃ k', k ≤ k' ∧ Delivered irs stream k' t := by
  obtain ⟨-, hen, ⟨f, -, rfl⟩ | ⟨o, u, hu, rfl⟩⟩ := step_cases hstep
  · refine ⟨k, Nat.le_refl _, ⟨⟨?_, h.session.live, h.session.gone⟩, h.exact⟩⟩
    exact ⟨h.session.upTo.next, h.session.upTo.bound, h.session.upTo.fin, h.session.upTo.returned,
      h.session.upTo.exact⟩
  · by_cases hseg : ∃ th p, e = .segment th p
    · obtain ⟨th, p, rfl⟩ := hseg
      obtain ⟨v, hv, heq⟩ := map_eq_ok.mp hu
      cases heq
      exact h.segment hok hkeep (by simpa [Tcb.enabled] using hen) hv rfl (List.append_nil _)
    · by_cases hread : e = .read
      · subst hread
        cases hu
        refine ⟨k, Nat.le_refl _, h.session.read rfl rfl, ?_⟩
        rw [← h.exact]
        simp [unread, Session.returns, Tcb.read]
      · have hseg : ∀ th p, e ≠ .segment th p := fun th p heq => hseg ⟨th, p, heq⟩
        have hquiet := quiet_handle hseg hread hu
        have hrec : s.received ++ s.returns e = s.received := by
          cases e <;> first | exact List.append_nil _ | exact absurd rfl hread
        refine ⟨k, Nat.le_refl _, h.session.quiet hquiet rfl hrec, ?_⟩
        show (s.received ++ s.returns e) ++ u.rcv.data.flatten = _
        rw [hrec, ← h.exact]
        rcases hquiet.rest with ⟨-, hdata, -⟩ | ⟨hgone, hdata⟩
        · rw [hdata, unread]
        -- The connection is removed: before, or by a step that meets the condition.
        · rw [hdata, List.flatten_nil]
          cases hlive : s.tcb.removed with
          | true => rw [unread, h.session.gone hlive, List.flatten_nil]
          | false =>
            obtain ⟨m, hm⟩ := h.session.live hlive
            have hgives := givesUpOn_of_removed hseg hm.synchronized hu hlive hgone
            have hnil : unread s = [] := by
              cases e with
              | segment th p => exact absurd rfl (hseg th p)
              | retransmit | shutdownConnect => exact hkeep hgives
              | send | read | waitForData | closeRead | close | closeContinuation | getPacket
              | arpQueueFull | arpTimeout | persist | delayedAck => exact hgives.elim
            rw [hnil]

/-- A run of steps that drop nothing keeps the invariant, and `RCV.NXT` moves forward in it. -/
theorem Delivered.run {es : List TcbEvent} (h : Delivered irs stream k s)
    (hok : Guarded (Session.step tso) (fun s e => ConsistentEvent irs stream s e ∧ KeepsUnread s e) s es)
    (hrun : Lib.run (Session.step tso) s es = some t) : ∃ k', k ≤ k' ∧ Delivered irs stream k' t := by
  induction es generalizing k s with
  | nil =>
    cases hrun
    exact ⟨k, Nat.le_refl _, h⟩
  | cons e es ih =>
    obtain ⟨u, hu, hrest⟩ := run_cons.mp hrun
    obtain ⟨⟨hevent, hkeep⟩, hlater⟩ := hok u hu
    obtain ⟨k₁, hle, hinv⟩ := h.step hevent hkeep hu
    obtain ⟨k₂, hle', hinv'⟩ := ih hinv hlater hrest
    exact ⟨k₂, Nat.le_trans hle hle', hinv'⟩

end

/-- Take a connection that accepts the SYN with the header `th`, and a run in which every segment that
arrives belongs to the stream of the peer and no step removes the connection over unread bytes. In each
state the user has read, or can still read, exactly the stream up to the position of `RCV.NXT`, the FIN
is taken only behind the whole stream, and `RCV.NXT` never moves back. -/
theorem delivers_of_keepsUnread {th : TcbHdr} {stream : List UInt8} {s t u : Session} {tso : Bool}
    {es es' : List TcbEvent} (hopen : Session.PassiveOpen th s)
    (hok : Guarded (Session.step tso)
      (fun s e => ConsistentEvent th.seq stream s e ∧ KeepsUnread s e) s (es ++ es'))
    (ht : run (Session.step tso) s es = some t) (hu : run (Session.step tso) t es' = some u) :
    ∃ k k', k ≤ k' ∧ Delivers th.seq stream k t ∧ Delivers th.seq stream k' u := by
  obtain ⟨hfirst, hrest⟩ := hok.append
  have hstart := recvSession_of_passiveOpen stream hopen
  have hlive : s.tcb.removed = false := by
    obtain ⟨g, p, isn, v, hv, rfl⟩ := hopen
    obtain ⟨options, -, hret⟩ := bind_eq_ok.mp hv
    cases hret
    exact (removed_output _).trans rfl
  obtain ⟨k, -, hk⟩ := (delivered_of_live hstart hlive).run hfirst ht
  obtain ⟨k', hle, hk'⟩ := hk.run (hrest t ht) hu
  exact ⟨k, k', hle, hk.delivers, hk'.delivers⟩

/-! ### Runs on fixed input -/

/-- Whether a segment is one of the stream can be computed. -/
instance decidableOfStream (irs : TcpSeq) (stream : List UInt8) (k : Nat) (th : TcbHdr) (p : Packet)
    (x : Int) : Decidable (OfStream irs stream k th p x) :=
  decidable_of_iff
    (th.seq = irs.add (1 + x) ∧ (k - (2 ^ 31 - 2 ^ 16) ≤ x ∧ x ≤ k + (2 ^ 31 - 2 ^ 16)) ∧
      x + p.length < k + 2 ^ 31 ∧
      (p ≠ [] → 0 ≤ x ∧ x + p.length ≤ stream.length ∧ p = (stream.drop x.toNat).take p.length) ∧
      (th.fFin = true → x + p.length = stream.length))
    ⟨fun h => ⟨h.1, h.2.1, h.2.2.1, h.2.2.2.1, h.2.2.2.2⟩,
      fun h => ⟨h.seq, h.near, h.ends, h.payload, h.fin⟩⟩

/-- The number of a segment tells its position in the stream. -/
theorem OfStream.position {irs : TcpSeq} {stream : List UInt8} {k : Nat} {th : TcbHdr} {p : Packet}
    {x : Int} (h : OfStream irs stream k th p x) : k + th.seq.sub (irs.add (1 + k)) = x := by
  have hnear := h.near
  rw [h.seq, seq_eq_wrap, seq_eq_wrap, sub_wrap _ _ _ (by omega) (by omega)]
  omega

/-- Whether an event agrees with the stream can be computed. -/
instance decidableConsistentEvent (irs : TcpSeq) (stream : List UInt8) (s : Session) (e : TcbEvent) :
    Decidable (ConsistentEvent irs stream s e) :=
  match e with
  | .segment th p =>
    decidable_of_iff (OfStream irs stream (rcvPos s) th (p.drop (th.dataOffset * 4))
        (rcvPos s + th.seq.sub (irs.add (1 + rcvPos s))))
      ⟨fun h => ⟨_, h⟩, fun ⟨_, h⟩ => h.position.symm ▸ h⟩
  | .send _ | .read | .waitForData | .closeRead | .close | .closeContinuation | .shutdownConnect
  | .getPacket | .arpQueueFull | .arpTimeout | .retransmit | .persist | .delayedAck => isTrue trivial

/-- The acknowledgment number of a segment lies between `SND.UNA` and `SND.NXT`. The code counts our FIN
in `_snd.next` only when it is acknowledged, so the bound is one more while the FIN is on its way. -/
def AckInRange (s : Session) : TcbEvent → Prop
  | .segment th _ =>
    s.tcb.snd.unacknowledged.le th.ack = true ∧
      th.ack.le (if s.tcb.finNeedsOn then s.tcb.snd.next.add 1 else s.tcb.snd.next) = true
  | _ => True

/-- Whether an acknowledgment is in range can be computed. -/
instance decidableAckInRange (s : Session) (e : TcbEvent) : Decidable (AckInRange s e) := by
  unfold AckInRange
  split
  · exact inferInstance
  · exact inferInstance

/-- The user closes, and the peer acknowledges our FIN. Then it sends its text and its FIN. -/
def orderlyClose (rest : List TcbEvent) : List TcbEvent :=
  .segment (plainHdr 0 0 false) (List.replicate 20 0) :: .close :: .closeContinuation :: .getPacket ::
    .segment (plainHdr 0 1 false) (List.replicate 20 0) :: rest

/-- A step that satisfies `KeepsUnread` because nothing is unread. -/
def NothingUnread (s : Session) : TcbEvent → Prop
  | .segment th p => unread s = [] ∧ (th.fFin = true → p.length = th.dataOffset * 4)
  | .retransmit | .shutdownConnect => unread s = []
  | _ => True

/-- Whether nothing is unread at an event can be computed. -/
instance decidableNothingUnread (s : Session) (e : TcbEvent) : Decidable (NothingUnread s e) := by
  unfold NothingUnread
  split
  · exact inferInstance
  · exact inferInstance
  · exact inferInstance
  · exact inferInstance

/-- Where nothing is unread, nothing unread is lost. -/
theorem keepsUnread_of_nothingUnread {s : Session} {e : TcbEvent} (h : NothingUnread s e) :
    KeepsUnread s e := by
  cases e with
  | segment th p =>
    obtain ⟨hnil, hempty⟩ := h
    rintro r ⟨q, hq, -, hr⟩
    refine ⟨fun _ => hnil, fun hlast => ⟨hnil, ?_⟩⟩
    have hlen := hempty hlast.2.2.1
    rw [trimFront_ok _ _ (by omega) (by omega)] at hq
    cases hq
    have hdrop : p.drop (th.dataOffset * 4 : Int).toNat = [] := List.drop_eq_nil_iff.mpr (by omega)
    rw [hdrop, Receive.trimDuplicate] at hr
    split at hr
    · exact (congrArg Prod.snd hr).symm.trans List.drop_nil
    · exact (congrArg Prod.snd hr).symm
  | retransmit | shutdownConnect => exact fun _ => h
  | send | read | waitForData | closeRead | close | closeContinuation | getPacket | arpQueueFull
  | arpTimeout | persist | delayedAck => exact False.elim

/-- The user reads the text before the FIN arrives. -/
theorem delivers_of_keepsUnread_read :
    let es := orderlyClose [.segment (plainHdr 0 1 false) (List.replicate 20 0 ++ [1, 2, 3]), .read]
    let es' : List TcbEvent := [.segment (plainHdr 3 1 true) (List.replicate 20 0)]
    ∃ t u, run (Session.step false) { tcb := acceptedTcb } es = some t ∧
      run (Session.step false) t es' = some u ∧
      ∃ k k', k ≤ k' ∧ Delivers ⟨0xffffffff⟩ [1, 2, 3] k t ∧ Delivers ⟨0xffffffff⟩ [1, 2, 3] k' u := by
  intro es es'
  have hsome : (run (Session.step false) { tcb := acceptedTcb } (es ++ es')).isSome = true := by
    decide +kernel
  have hok : Guarded (Session.step false)
      (fun s e => ConsistentEvent ⟨0xffffffff⟩ [1, 2, 3] s e ∧ NothingUnread s e)
      { tcb := acceptedTcb } (es ++ es') := by
    decide +kernel
  obtain ⟨u, hrun⟩ := Option.isSome_iff_exists.mp hsome
  obtain ⟨t, ht, hu⟩ := run_append.mp hrun
  exact ⟨t, u, ht, hu, delivers_of_keepsUnread passiveOpen_acceptedTcb
    (hok.mono fun _ _ h => ⟨h.1, keepsUnread_of_nothingUnread h.2⟩) ht hu⟩

/-- The text comes together with the FIN. Both are acknowledged, and the text is dropped. -/
theorem orderlyClose_drops_text :
    ¬ ∀ (stream : List UInt8) (s t : Session) (es : List TcbEvent), Session.PassiveOpen lastSyn s →
        Guarded (Session.step false)
          (fun s e => ConsistentEvent lastSyn.seq stream s e ∧ AckInRange s e) s es →
        run (Session.step false) s es = some t → ∃ k, Delivers lastSyn.seq stream k t := by
  intro hall
  let es := orderlyClose [.segment (plainHdr 0 1 true) (List.replicate 20 0 ++ [1, 2, 3])]
  have hok : Guarded (Session.step false)
      (fun s e => ConsistentEvent lastSyn.seq [1, 2, 3] s e ∧ AckInRange s e)
      { tcb := acceptedTcb } es := by
    decide +kernel
  have hend : (run (Session.step false) { tcb := acceptedTcb } es).map
      (fun t => (t.tcb.rcv.next, t.received ++ unread t)) = some (⟨4⟩, []) := by
    decide +kernel
  obtain ⟨t, ht, hres⟩ := Option.map_eq_some_iff.mp hend
  have hnext : t.tcb.rcv.next = ⟨4⟩ := congrArg Prod.fst hres
  have hnil : t.received ++ unread t = [] := congrArg Prod.snd hres
  obtain ⟨k, hk⟩ := hall [1, 2, 3] _ t es passiveOpen_acceptedTcb hok ht
  -- Nothing is there, so the position is zero, and `RCV.NXT` would be the number of the first byte.
  have hzero : k = 0 := by
    have htake := hk.exact
    rw [hnil] at htake
    cases k with
    | zero => rfl
    | succ k => cases htake
  have hstart := hk.next
  rw [hnext, hzero] at hstart
  exact absurd hstart (by decide)

end Netstar.Proofs.Net
