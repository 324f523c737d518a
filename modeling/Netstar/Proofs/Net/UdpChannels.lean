import Netstar.Lib.Run
import Netstar.Spec.Net.UdpChannels

/-!
# `Netstar.Proofs.Net.UdpChannels`: the port that `make_channel` chooses

The search goes through the ports in their cyclic order, one after the other, and ends with the first
one that is not in the table, or after all 65536. `searchLoop_spec` says this. `next_port` would skip
the ports below 32768 if `port + 1` could be zero, but this sum is an `int`. So after port 65535 the
cursor is 0, and the search can end with a port below 32768, although ports of the anonymous range are
free.

The table has the ports of the open channels as long as no channel is closed twice. A second `close`
takes a port out of the table that another channel may have by then, or a port that is not there.
-/

set_option autoImplicit false

namespace Netstar.Proofs.Net.UdpSession

open Netstar.Lib
open Netstar.Spec.Net
open Netstar.Spec.Net.Ipv4Udp
open Netstar.Spec.Net.UdpSession

/-- The port that comes `n` places after the port `p`, when 0 comes after 65535. -/
def portAfter (p : UInt16) (n : Nat) : UInt16 := p + UInt16.ofNat n

/-- What an unspecified port promises. The search ends. Its port is in the anonymous range and no open
channel has it, and there is an error only when open channels have the whole range. -/
def ChoosesFree (s : UdpSession) : UdpCall → Prop
  | .makeChannel addr =>
    addr.port = 0 →
      match s.udp.makeChannel addr with
      | none => False
      | some (.ok port, _) => 32768 ≤ port.toNat ∧ port ∉ s.openPorts
      | some (.error _, _) => ∀ port : UInt16, 32768 ≤ port.toNat → port ∈ s.openPorts
  | .close _ => True

/-- A channel is closed only once. -/
def ClosesOpen (s : UdpSession) : UdpCall → Prop
  | .makeChannel _ => True
  | .close i => ∀ c ∈ s.made[i]?, c.closed = false

/-- Whether a call closes an open channel can be computed. -/
instance (s : UdpSession) : ∀ call, Decidable (ClosesOpen s call)
  | .makeChannel _ => isTrue trivial
  | .close i => inferInstanceAs (Decidable (∀ c ∈ s.made[i]?, c.closed = false))

/-- The address names no IP, and the first port from the cursor on that no open channel has, if there
is one, is not below 32768. -/
def FirstIsAnonymous (s : UdpSession) : UdpCall → Prop
  | .makeChannel addr =>
    addr.port = 0 →
      if addr.ip = 0 then
        ∀ n, portAfter s.udp.nextAnonymousPort n ∉ s.openPorts →
          (∀ m < n, portAfter s.udp.nextAnonymousPort m ∈ s.openPorts) →
          32768 ≤ (portAfter s.udp.nextAnonymousPort n).toNat
      else ∀ port : UInt16, 32768 ≤ port.toNat → port ∈ s.openPorts
  | .close _ => True

/-! ### The search -/

/-- The next port is the one after, and it wraps. -/
theorem nextPort_eq (p : UInt16) : nextPort p = p + 1 := by
  rw [nextPort, if_neg (Nat.succ_ne_zero _)]
  apply UInt16.toNat_inj.mp
  rw [UInt16.toNat_ofNat', UInt16.toNat_add, UInt16.toNat_one]

/-- No step leaves the port. -/
theorem portAfter_zero (p : UInt16) : portAfter p 0 = p := by
  simp [portAfter]

/-- One more step from a port. -/
theorem nextPort_portAfter (p : UInt16) (n : Nat) :
    nextPort (portAfter p n) = portAfter p (n + 1) := by
  rw [nextPort_eq, portAfter, portAfter, UInt16.ofNat_add, UInt16.add_assoc]
  rfl

/-- A port some steps later, as a number. -/
theorem toNat_portAfter (p : UInt16) (n : Nat) :
    (portAfter p n).toNat = (p.toNat + n) % 65536 := by
  rw [portAfter, UInt16.toNat_add, UInt16.toNat_ofNat', Nat.add_mod_mod]

/-- The search is back at its start after 65536 ports, and not before. -/
theorem portAfter_eq_self_iff {p : UInt16} {n : Nat} (hpos : 0 < n) (hn : n ≤ 65536) :
    p = portAfter p n ↔ n = 65536 := by
  have hp := p.toNat_lt
  rw [← UInt16.toNat_inj, toNat_portAfter]
  omega

/-- Every port comes after every other one. -/
theorem exists_portAfter (p q : UInt16) : ∃ n < 65536, portAfter p n = q := by
  have hp := p.toNat_lt
  have hq := q.toNat_lt
  refine ⟨(q.toNat + 65536 - p.toNat) % 65536, Nat.mod_lt _ (by decide), ?_⟩
  rw [← UInt16.toNat_inj, toNat_portAfter]
  omega

/-- The ways the search ends. -/
inductive SearchResult (channels : List UInt16) (start : UInt16) :
    Except MakeError Unit × UInt16 → Prop
  | found (n : Nat) (hfree : portAfter start n ∉ channels)
      (hused : ∀ m < n, portAfter start m ∈ channels) :
      SearchResult channels start (.ok (), portAfter start n)
  | full (hused : ∀ p, p ∈ channels) : SearchResult channels start (.error .noFreePort, start)

/-- The loop ends within the rounds that are left of 65536. -/
theorem searchLoop_spec {channels : List UInt16} {start : UInt16} :
    ∀ fuel n, n < 65536 → n + fuel = 65536 → (∀ m < n, portAfter start m ∈ channels) →
      ∃ r, searchLoop channels start fuel (portAfter start n) = some r ∧
        SearchResult channels start r := by
  intro fuel
  induction fuel with
  | zero => intro n hn hfuel; omega
  | succ fuel ih =>
    intro n hn hfuel hused
    rw [searchLoop]
    by_cases hmem : portAfter start n ∈ channels
    · have hused' : ∀ m < n + 1, portAfter start m ∈ channels := by
        intro m hm
        rcases Nat.lt_succ_iff_lt_or_eq.mp hm with hlt | rfl
        · exact hused m hlt
        · exact hmem
      rw [if_pos (List.contains_iff_mem.mpr hmem)]
      rw [nextPort_portAfter]
      by_cases hback : start = portAfter start (n + 1)
      · -- The search has seen all ports.
        rw [if_pos hback, ← hback]
        have hn := (portAfter_eq_self_iff n.succ_pos hn).mp hback
        refine ⟨_, rfl, .full fun p => ?_⟩
        obtain ⟨m, hm, rfl⟩ := exists_portAfter start p
        exact hused' m (by omega)
      · rw [if_neg hback]
        have hn' : n + 1 ≠ 65536 := fun h => hback ((portAfter_eq_self_iff n.succ_pos hn).mpr h)
        exact ih (n + 1) (by omega) (by omega) hused'
    · rw [if_neg fun h => hmem (List.contains_iff_mem.mp h)]
      exact ⟨_, rfl, .found n hmem hused⟩

/-- `searchLoop_spec` for the call in `make_channel`. -/
theorem searchLoop_result (channels : List UInt16) (start : UInt16) :
    ∃ r, searchLoop channels start searchFuel start = some r ∧ SearchResult channels start r := by
  have hused : ∀ m < 0, portAfter start m ∈ channels := fun m hm => absurd hm m.not_lt_zero
  have hspec := searchLoop_spec searchFuel 0 (by decide) rfl hused
  rwa [portAfter_zero] at hspec

/-! ### The table and the open channels -/

/-- The table has the ports of the open channels, and each of them once. -/
structure Inv (s : UdpSession) : Prop where
  nodup : s.openPorts.Nodup
  mem_iff : ∀ port, port ∈ s.udp.channels ↔ port ∈ s.openPorts

/-- The open ports of two lists of channels follow each other. -/
theorem openPorts_append (udp : Ipv4Udp) (made made' : List NativeChannel) :
    (UdpSession.mk udp (made ++ made')).openPorts =
      (UdpSession.mk udp made).openPorts ++ (UdpSession.mk udp made').openPorts := by
  simp [openPorts]

/-- A new session meets the invariant. -/
theorem Inv.create : Inv UdpSession.create := ⟨List.nodup_nil, fun _ => Iff.rfl⟩

/-- A port that was not in the table gets a channel. -/
theorem Inv.opened {s : UdpSession} (h : Inv s) {port cursor : UInt16}
    (hfree : port ∉ s.udp.channels) :
    Inv ⟨({ s.udp with nextAnonymousPort := cursor } : Ipv4Udp).bind port,
      s.made ++ [⟨port, false⟩]⟩ := by
  have hports : (UdpSession.mk (({ s.udp with nextAnonymousPort := cursor } : Ipv4Udp).bind port)
      (s.made ++ [⟨port, false⟩])).openPorts = s.openPorts ++ [port] :=
    openPorts_append _ _ _
  constructor
  · rw [hports]
    exact List.nodup_append.mpr ⟨h.nodup, List.nodup_singleton port, fun p hp q hq => by
      rw [List.mem_singleton.mp hq]
      rintro rfl
      exact hfree ((h.mem_iff p).mpr hp)⟩
  · intro p
    rw [hports, List.mem_append, List.mem_singleton, ← h.mem_iff]
    exact List.mem_cons.trans or_comm

/-- An open channel is closed. -/
theorem Inv.closed {s : UdpSession} (h : Inv s) {i : Nat} {port : UInt16} {udp : Ipv4Udp}
    (hchannel : s.made[i]? = some ⟨port, false⟩) (hunregister : s.udp.unregister port = some udp) :
    Inv ⟨udp, s.made.set i ⟨port, true⟩⟩ := by
  obtain ⟨hi, hget⟩ := List.getElem?_eq_some_iff.mp hchannel
  -- The channels before the closed one, and the channels after it.
  have hmade : s.made = s.made.take i ++ ⟨port, false⟩ :: s.made.drop (i + 1) := by
    rw [← hget, List.getElem_cons_drop, List.take_append_drop]
  have hset : s.made.set i ⟨port, true⟩ = s.made.take i ++ ⟨port, true⟩ :: s.made.drop (i + 1) := by
    rw [List.set_eq_take_append_cons_drop, if_pos hi]
  generalize s.made.take i = before at hmade hset
  generalize s.made.drop (i + 1) = after at hmade hset
  obtain ⟨hnodup, hmem⟩ := h
  have hopen : s.openPorts = (UdpSession.mk udp before).openPorts ++
      port :: (UdpSession.mk udp after).openPorts := by
    rw [openPorts, hmade, List.filter_append, List.map_append]
    rfl
  have hrest : (UdpSession.mk udp (s.made.set i ⟨port, true⟩)).openPorts =
      (UdpSession.mk udp before).openPorts ++ (UdpSession.mk udp after).openPorts := by
    rw [hset, openPorts, List.filter_append, List.map_append]
    rfl
  rw [hopen] at hnodup
  obtain ⟨hport, hnodup⟩ := List.nodup_middle.mp hnodup |> List.nodup_cons.mp
  constructor
  · rw [hrest]
    exact hnodup
  · intro p
    rw [unregister] at hunregister
    split at hunregister
    · cases hunregister
      rw [hrest, List.mem_filter, hmem, hopen]
      simp only [List.mem_append, List.mem_cons, decide_eq_true_eq] at hport ⊢
      constructor
      · rintro ⟨hp | rfl | hp, hne⟩
        · exact .inl hp
        · exact absurd rfl hne
        · exact .inr hp
      · rintro (hp | hp)
        · exact ⟨.inl hp, fun hEq => hport (.inl (hEq ▸ hp))⟩
        · exact ⟨.inr (.inr hp), fun hEq => hport (.inr (hEq ▸ hp))⟩
    · cases hunregister

/-! ### One call -/

/-- The two ways a call without IP and port ends. -/
theorem makeChannel_unspecified (s : Ipv4Udp) {addr : BindAddr} (hip : addr.ip = 0)
    (hport : addr.port = 0) :
    (∃ n, portAfter s.nextAnonymousPort n ∉ s.channels ∧
      (∀ m < n, portAfter s.nextAnonymousPort m ∈ s.channels) ∧
      s.makeChannel addr = some (.ok (portAfter s.nextAnonymousPort n),
        { s with nextAnonymousPort := portAfter s.nextAnonymousPort (n + 1) }.bind
          (portAfter s.nextAnonymousPort n))) ∨
    (∀ p, p ∈ s.channels) ∧ s.makeChannel addr = some (.error .noFreePort, s) := by
  obtain ⟨r, hsearch, hresult⟩ := searchLoop_result s.channels s.nextAnonymousPort
  rw [makeChannel, if_neg (not_not_intro hip), if_neg (not_not_intro hport), hsearch]
  cases hresult with
  | found n hfree hused =>
    refine .inl ⟨n, hfree, hused, ?_⟩
    rw [← nextPort_portAfter]
  | full hused => exact .inr ⟨hused, rfl⟩

/-- A port that `make_channel` returns was not in the table. -/
theorem makeChannel_ok {s udp : Ipv4Udp} {addr : BindAddr} {port : UInt16}
    (h : s.makeChannel addr = some (.ok port, udp)) :
    port ∉ s.channels ∧ ∃ cursor, udp = { s with nextAnonymousPort := cursor }.bind port := by
  by_cases hip : addr.ip = 0
  · by_cases hport : addr.port = 0
    · obtain ⟨n, hfree, -, hmake⟩ | ⟨-, hmake⟩ := makeChannel_unspecified s hip hport
      · rw [hmake] at h
        cases h
        exact ⟨hfree, _, rfl⟩
      · rw [hmake] at h
        cases h
    · rw [makeChannel, if_neg (not_not_intro hip), if_pos hport] at h
      split at h
      · cases h
      · rename_i hfree
        cases h
        exact ⟨fun hmem => hfree (List.contains_iff_mem.mpr hmem), s.nextAnonymousPort, rfl⟩
  · rw [makeChannel, if_pos hip] at h
    cases h

/-- A call that throws leaves the table alone. -/
theorem makeChannel_error {s udp : Ipv4Udp} {addr : BindAddr} {e : MakeError}
    (h : s.makeChannel addr = some (.error e, udp)) : udp = s := by
  by_cases hip : addr.ip = 0
  · by_cases hport : addr.port = 0
    · obtain ⟨n, -, -, hmake⟩ | ⟨-, hmake⟩ := makeChannel_unspecified s hip hport
      · rw [hmake] at h
        cases h
      · rw [hmake] at h
        cases h
        rfl
    · rw [makeChannel, if_neg (not_not_intro hip), if_pos hport] at h
      split at h
      · cases h
        rfl
      · cases h
  · rw [makeChannel, if_pos hip] at h
    cases h
    rfl

/-- A call keeps the invariant, unless it closes a channel again. -/
theorem Inv.step {s t : UdpSession} (h : Inv s) {call : UdpCall} (hopen : ClosesOpen s call)
    (hstep : s.step call = some t) : Inv t := by
  cases call with
  | makeChannel addr =>
    simp only [UdpSession.step] at hstep
    split at hstep
    · cases hstep
    · rename_i e udp hmake
      cases hstep
      rw [makeChannel_error hmake]
      exact h
    · rename_i port udp hmake
      cases hstep
      obtain ⟨hfree, cursor, rfl⟩ := makeChannel_ok hmake
      exact h.opened hfree
  | close i =>
    simp only [UdpSession.step] at hstep
    split at hstep
    · cases hstep
    · rename_i c hchannel
      obtain ⟨udp, hunregister, rfl⟩ := Option.map_eq_some_iff.mp hstep
      obtain ⟨port, closed⟩ := c
      obtain rfl : closed = false := hopen _ hchannel
      exact h.closed hchannel hunregister

/-- A call does what it promises exactly when it meets the condition. -/
theorem choosesFree_iff {s : UdpSession} (h : Inv s) (call : UdpCall) :
    ChoosesFree s call ↔ FirstIsAnonymous s call := by
  cases call with
  | close i => exact Iff.rfl
  | makeChannel addr =>
    refine imp_congr_right fun hport => ?_
    by_cases hip : addr.ip = 0
    · rw [if_pos hip]
      obtain ⟨n, hfree, hused, hmake⟩ | ⟨hused, hmake⟩ := makeChannel_unspecified s.udp hip hport
      · rw [hmake]
        have hfree' : portAfter s.udp.nextAnonymousPort n ∉ s.openPorts :=
          fun hmem => hfree ((h.mem_iff _).mpr hmem)
        have hused' : ∀ m < n, portAfter s.udp.nextAnonymousPort m ∈ s.openPorts :=
          fun m hm => (h.mem_iff _).mp (hused m hm)
        constructor
        · rintro ⟨hrange, -⟩ k hk hbefore
          -- There is only one first port.
          rcases Nat.lt_trichotomy k n with hlt | rfl | hgt
          · exact absurd (hused' k hlt) hk
          · exact hrange
          · exact absurd (hbefore n hgt) hfree'
        · exact fun hfirst => ⟨hfirst n hfree' hused', hfree'⟩
      · rw [hmake]
        have hall : ∀ p, p ∈ s.openPorts := fun p => (h.mem_iff p).mp (hused p)
        exact iff_of_true (fun p _ => hall p) fun n hfree => absurd (hall _) hfree
    · rw [if_neg hip, makeChannel, if_pos hip]

/-! ### The runs -/

/-- When no channel is closed twice, every call of a program chooses a free port of the anonymous range
exactly when each of them finds such a port first. -/
theorem choosesFree_run_iff {calls : List UdpCall}
    (hopen : Meets UdpSession.step ClosesOpen UdpSession.create calls) :
    Meets UdpSession.step ChoosesFree UdpSession.create calls ↔
      Meets UdpSession.step FirstIsAnonymous UdpSession.create calls :=
  meets_congr_of_meets Inv (fun _ _ _ h hopen hstep => h.step hopen hstep)
    (fun _ call h _ => choosesFree_iff h call) Inv.create hopen

/-- Two channels without a port and one with a port, of which the first one is closed. -/
theorem choosesFree_run_of_close :
    Meets UdpSession.step ClosesOpen UdpSession.create
        [.makeChannel ⟨0, 0⟩, .makeChannel ⟨0, 53⟩, .close 0, .makeChannel ⟨0, 0⟩] ∧
      (Meets UdpSession.step ChoosesFree UdpSession.create
          [.makeChannel ⟨0, 0⟩, .makeChannel ⟨0, 53⟩, .close 0, .makeChannel ⟨0, 0⟩] ↔
        Meets UdpSession.step FirstIsAnonymous UdpSession.create
          [.makeChannel ⟨0, 0⟩, .makeChannel ⟨0, 53⟩, .close 0, .makeChannel ⟨0, 0⟩]) := by
  have hopen : Meets UdpSession.step ClosesOpen UdpSession.create
      [.makeChannel ⟨0, 0⟩, .makeChannel ⟨0, 53⟩, .close 0, .makeChannel ⟨0, 0⟩] := by
    decide
  exact ⟨hopen, choosesFree_run_iff hopen⟩

/-! ### The end of the range -/

/-- When the next port is free, the channel gets it. -/
theorem makeChannel_of_free {s : Ipv4Udp} (hfree : s.nextAnonymousPort ∉ s.channels) :
    s.makeChannel ⟨0, 0⟩ = some (.ok s.nextAnonymousPort,
      { s with nextAnonymousPort := portAfter s.nextAnonymousPort 1 }.bind
        s.nextAnonymousPort) := by
  have hip : BindAddr.ip ⟨0, 0⟩ = 0 := rfl
  obtain ⟨n, -, hused, hmake⟩ | ⟨hused, -⟩ := makeChannel_unspecified s hip rfl
  · cases n with
    | zero => rwa [portAfter_zero] at hmake
    | succ n =>
      have hzero := hused 0 n.succ_pos
      rw [portAfter_zero] at hzero
      exact absurd hzero hfree
  · exact absurd (hused _) hfree

/-- After `n` channels without a port, the cursor is `n` places behind the beginning of the range, and
only the ports in between are in the table. -/
theorem run_anonymous (n : Nat) (hn : n ≤ 32768) :
    ∃ t, run UdpSession.step UdpSession.create
        (List.replicate n (.makeChannel ⟨0, 0⟩)) = some t ∧
      t.udp.nextAnonymousPort = portAfter minAnonymousPort n ∧
      ∀ p ∈ t.udp.channels, ∃ m < n, p = portAfter minAnonymousPort m := by
  induction n with
  | zero => exact ⟨_, rfl, rfl, fun p hp => absurd hp List.not_mem_nil⟩
  | succ n ih =>
    obtain ⟨s, hrun, hcursor, hbelow⟩ := ih (by omega)
    have hfree : s.udp.nextAnonymousPort ∉ s.udp.channels := by
      intro hmem
      obtain ⟨m, hm, hEq⟩ := hbelow _ hmem
      have hsame := congrArg UInt16.toNat (hcursor.symm.trans hEq)
      rw [toNat_portAfter, toNat_portAfter] at hsame
      have hmin : minAnonymousPort.toNat = 32768 := rfl
      omega
    let udp := ({ s.udp with nextAnonymousPort := portAfter s.udp.nextAnonymousPort 1 } :
      Ipv4Udp).bind s.udp.nextAnonymousPort
    have hstep : s.step (.makeChannel ⟨0, 0⟩) =
        some ⟨udp, s.made ++ [⟨s.udp.nextAnonymousPort, false⟩]⟩ := by
      simp only [UdpSession.step, makeChannel_of_free hfree]
      rfl
    refine ⟨⟨udp, s.made ++ [⟨s.udp.nextAnonymousPort, false⟩]⟩, ?_, ?_, ?_⟩
    · rw [List.replicate_succ']
      exact run_append.mpr ⟨s, hrun, run_cons.mpr ⟨_, hstep, rfl⟩⟩
    · show portAfter s.udp.nextAnonymousPort 1 = _
      rw [hcursor, ← nextPort_portAfter _ 0, portAfter_zero, nextPort_portAfter]
    · intro p hp
      rcases List.mem_cons.mp hp with rfl | hp
      · exact ⟨n, n.lt_succ_self, hcursor⟩
      · obtain ⟨m, hm, hEq⟩ := hbelow p hp
        exact ⟨m, hm.trans n.lt_succ_self, hEq⟩

/-- After 32768 channels without a port, the next one gets port 0. -/
theorem not_choosesFree_after_range :
    ¬∀ calls : List UdpCall, Meets UdpSession.step ChoosesFree UdpSession.create calls := by
  intro h
  obtain ⟨n, hn⟩ : ∃ n, n = 32768 := ⟨_, rfl⟩
  obtain ⟨s, hrun, hcursor, hbelow⟩ := run_anonymous n (by omega)
  have hmin : minAnonymousPort.toNat = 32768 := rfl
  have hzero : s.udp.nextAnonymousPort = 0 := by
    rw [hcursor, hn]
    rfl
  have hfree : s.udp.nextAnonymousPort ∉ s.udp.channels := by
    intro hmem
    obtain ⟨m, hm, hEq⟩ := hbelow _ hmem
    have hsame := congrArg UInt16.toNat (hzero.symm.trans hEq)
    rw [toNat_portAfter, UInt16.toNat_zero] at hsame
    omega
  have hlast := ((h (List.replicate n (.makeChannel ⟨0, 0⟩) ++ [.makeChannel ⟨0, 0⟩])).rest
    hrun).1 rfl
  rw [makeChannel_of_free hfree, hzero] at hlast
  exact absurd hlast.1 (by decide)

end Netstar.Proofs.Net.UdpSession
