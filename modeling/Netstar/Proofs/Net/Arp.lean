import Mathlib.Data.List.Nodup
import Netstar.Lib.Run
import Netstar.Spec.Net.Arp

/-!
# `Netstar.Proofs.Net.Arp`: the lookups of `arp_for`

A lookup is either answered at once or waits in the entry of its address, and whoever takes promises
out of an entry resolves all of them. So a future is resolved once, with the address that was last
given to `arp_for` (`Inv`). No operation breaks this.

`set_self_addr` writes to the table as `learn` does, but it does not look at the waiters of the
address. They stay behind an entry that later lookups find, until the timer fails them. It also erases
the entry of `_l3self`, the address that it replaces. At first this is the broadcast address, so the
first call takes away the entry that the constructor has made.
-/

set_option autoImplicit false

namespace Netstar.Proofs.Net.ArpSession

open Netstar.Lib
open Netstar.Spec.Net
open Netstar.Spec.Net.ArpFor
open Netstar.Spec.Net.ArpSession

/-- Every future is resolved at most once, with a value that was last learned for its address. Not
more than 512 lookups wait for an address. -/
structure Sound (s : ArpSession) : Prop where
  once : (s.log.map ArpResolved.call).Nodup
  learned : ∀ e ∈ s.log, ∀ hw, e.answer = .ok hw → e.lastLearned = some hw
  bounded : ∀ addr, (s.arp.waiters addr).length ≤ maxWaiters

/-- Nobody waits for an address that is in the table. -/
def NoneStranded (s : ArpSession) : Prop :=
  ∀ addr hw, s.arp.table addr = some hw → s.arp.waiters addr = []

/-- A lookup of the broadcast address is answered at once. -/
def ResolvesBroadcast (s : ArpSession) : Prop :=
  ∀ k, (s.arp.lookup k l3Broadcast).2 = some (.ok etherBroadcast)

/-- The lookups got the right answers, nobody is stranded, and the broadcast address is resolved. -/
structure ArpRight (s : ArpSession) : Prop where
  sound : Sound s
  noneStranded : NoneStranded s
  resolvesBroadcast : ResolvesBroadcast s

/-- Nobody waits for the addresses that `set_self_addr` writes to the table. -/
def WritesFree (s : ArpSession) : ArpCall → Prop
  | .setSelfAddr addr =>
    s.arp.waiters addr = [] ∧ ∀ peer ∈ fixedPeer addr, s.arp.waiters peer.1 = []
  | _ => True

/-- The broadcast address is not replaced, and it is given no other hardware address. -/
def SparesBroadcast (l2self : L2Addr) (s : ArpSession) : ArpCall → Prop
  | .learn hwaddr paddr => paddr = l3Broadcast → hwaddr = etherBroadcast
  | .setSelfAddr addr =>
    if addr = l3Broadcast then l2self = etherBroadcast else s.arp.l3self ≠ l3Broadcast
  | _ => True

/-! ### The futures -/

/-- A lookup that waits is one that has not been resolved, and it waits for the address that it has
asked for. -/
structure Inv (s : ArpSession) : Prop where
  asked : ∀ addr, ∀ k ∈ s.arp.waiters addr, s.asked[k]? = some addr
  nodup : ∀ addr, (s.arp.waiters addr).Nodup
  waits : ∀ addr, ∀ k ∈ s.arp.waiters addr, k ∉ s.log.map ArpResolved.call
  lt : ∀ k ∈ s.log.map ArpResolved.call, k < s.asked.length
  table : ∀ addr hw, s.arp.table addr = some hw → s.learned addr = some hw
  sound : Sound s

/-- A new session meets the invariant. -/
theorem Inv.create : Inv ArpSession.create where
  asked := fun _ _ hk => absurd hk List.not_mem_nil
  nodup := fun _ => List.nodup_nil
  waits := fun _ _ hk => absurd hk List.not_mem_nil
  lt := fun _ hk => absurd hk List.not_mem_nil
  table := fun _ _ h => h
  sound :=
    { once := List.nodup_nil
      learned := fun _ he => absurd he List.not_mem_nil
      bounded := fun _ => Nat.zero_le _ }

/-- Writing the waiters of one address changes that address only. -/
theorem waiters_update (s : ArpFor) (table : L3Addr → Option L2Addr) (queries : List L3Addr)
    (addr : L3Addr) (x : Option (List Nat)) (b : L3Addr) :
    ArpFor.waiters ⟨s.l3self, table, Function.update s.inProgress addr x, queries⟩ b =
      if b = addr then x.getD [] else s.waiters b := by
  show (Function.update s.inProgress addr x b).getD [] = _
  rw [Function.update_apply]
  split
  · rfl
  · rfl

/-- A new number behind smaller ones. -/
theorem nodup_snoc {ks : List Nat} {n : Nat} (h : ks.Nodup) (hlt : ∀ k ∈ ks, k < n) :
    (ks ++ [n]).Nodup := by
  rw [← List.concat_eq_append]
  exact h.concat fun hn => Nat.lt_irrefl n (hlt n hn)

/-- All waiters of an address are resolved. -/
theorem Inv.resolve {s : ArpSession} (h : Inv s) {paddr : L3Addr} {arp : ArpFor}
    {learned : L3Addr → Option L2Addr} {answer : ArpAnswer}
    (hwaiters : ∀ b, arp.waiters b = if b = paddr then [] else s.arp.waiters b)
    (htable : ∀ addr hw, arp.table addr = some hw → learned addr = some hw)
    (hanswer : ∀ hw, answer = .ok hw → learned paddr = some hw) :
    Inv (ArpSession.resolve ⟨arp, s.asked, learned, s.log⟩ (s.arp.waiters paddr) answer) := by
  have hcalls : (ArpSession.resolve ⟨arp, s.asked, learned, s.log⟩ (s.arp.waiters paddr)
      answer).log.map ArpResolved.call = s.log.map ArpResolved.call ++ s.arp.waiters paddr := by
    simp [ArpSession.resolve, Function.comp_def]
  -- Who still waits afterwards waits for another address, and waited before.
  have hmem : ∀ {b k}, k ∈ arp.waiters b → b ≠ paddr ∧ k ∈ s.arp.waiters b := by
    intro b k hk
    rw [hwaiters] at hk
    split at hk
    · exact absurd hk List.not_mem_nil
    · exact ⟨‹_›, hk⟩
  constructor
  · exact fun b k hk => h.asked b k (hmem hk).2
  · intro b
    show (arp.waiters b).Nodup
    rw [hwaiters]
    split
    · exact List.nodup_nil
    · exact h.nodup b
  · intro b k hk
    obtain ⟨hne, hk⟩ := hmem hk
    rw [hcalls, List.mem_append, not_or]
    -- A lookup asks for one address, so it is not among the waiters that are resolved now.
    refine ⟨h.waits b k hk, fun hk' => hne ?_⟩
    exact Option.some.inj ((h.asked b k hk).symm.trans (h.asked paddr k hk'))
  · intro k hk
    rw [hcalls, List.mem_append] at hk
    rcases hk with hk | hk
    · exact h.lt k hk
    · exact (List.getElem?_eq_some_iff.mp (h.asked paddr k hk)).1
  · exact htable
  · constructor
    · rw [hcalls]
      refine List.nodup_append.mpr ⟨h.sound.once, h.nodup paddr, fun k hk k' hk' => ?_⟩
      rintro rfl
      exact h.waits paddr k hk' hk
    · intro e he hw hvalue
      rcases List.mem_append.mp he with he | he
      · exact h.sound.learned e he hw hvalue
      · obtain ⟨k, hk, rfl⟩ := List.mem_map.mp he
        show (s.asked[k]?).bind learned = some hw
        rw [h.asked paddr k hk]
        exact hanswer hw hvalue
    · intro b
      show (arp.waiters b).length ≤ maxWaiters
      rw [hwaiters]
      split
      · exact Nat.zero_le _
      · exact h.sound.bounded b

/-- A lookup arrives and is answered at once. -/
theorem Inv.answered {s : ArpSession} (h : Inv s) {paddr : L3Addr} {arp : ArpFor}
    {answer : ArpAnswer} (hwaiters : ∀ b, arp.waiters b = s.arp.waiters b)
    (htable : arp.table = s.arp.table)
    (hanswer : ∀ hw, answer = .ok hw → s.learned paddr = some hw) :
    Inv (ArpSession.resolve ⟨arp, s.asked ++ [paddr], s.learned, s.log⟩ [s.asked.length] answer) := by
  have hcalls : (ArpSession.resolve ⟨arp, s.asked ++ [paddr], s.learned, s.log⟩ [s.asked.length]
      answer).log.map ArpResolved.call = s.log.map ArpResolved.call ++ [s.asked.length] := by
    simp [ArpSession.resolve]
  have hlt : ∀ {b k}, k ∈ s.arp.waiters b → k < s.asked.length := fun hk =>
    (List.getElem?_eq_some_iff.mp (h.asked _ _ hk)).1
  constructor
  · intro b k hk
    change k ∈ arp.waiters b at hk
    rw [hwaiters] at hk
    exact (List.getElem?_append_left (hlt hk)).trans (h.asked b k hk)
  · intro b
    show (arp.waiters b).Nodup
    rw [hwaiters]
    exact h.nodup b
  · intro b k hk
    change k ∈ arp.waiters b at hk
    rw [hwaiters] at hk
    rw [hcalls, List.mem_append, List.mem_singleton, not_or]
    exact ⟨h.waits b k hk, Nat.ne_of_lt (hlt hk)⟩
  · intro k hk
    rw [hcalls, List.mem_append, List.mem_singleton] at hk
    show k < (s.asked ++ [paddr]).length
    rw [List.length_append, List.length_singleton]
    rcases hk with hk | rfl
    · exact Nat.lt_succ_of_lt (h.lt k hk)
    · exact Nat.lt_succ_self _
  · intro addr hw hentry
    exact h.table addr hw (htable ▸ hentry)
  · constructor
    · rw [hcalls]
      exact nodup_snoc h.sound.once h.lt
    · intro e he hw hvalue
      rcases List.mem_append.mp he with he | he
      · exact h.sound.learned e he hw hvalue
      · obtain ⟨k, hk, rfl⟩ := List.mem_map.mp he
        show ((s.asked ++ [paddr])[k]?).bind s.learned = some hw
        rw [List.mem_singleton.mp hk, List.getElem?_concat_length]
        exact hanswer hw hvalue
    · intro b
      show (arp.waiters b).length ≤ maxWaiters
      rw [hwaiters]
      exact h.sound.bounded b

/-- A lookup arrives and waits. -/
theorem Inv.waiting {s : ArpSession} (h : Inv s) {paddr : L3Addr} {arp : ArpFor}
    (hwaiters : ∀ b, arp.waiters b =
      if b = paddr then s.arp.waiters paddr ++ [s.asked.length] else s.arp.waiters b)
    (hroom : (s.arp.waiters paddr).length < maxWaiters) (htable : arp.table = s.arp.table) :
    Inv ⟨arp, s.asked ++ [paddr], s.learned, s.log⟩ := by
  have hlt : ∀ {b k}, k ∈ s.arp.waiters b → k < s.asked.length := fun hk =>
    (List.getElem?_eq_some_iff.mp (h.asked _ _ hk)).1
  -- Only the new lookup has been added to a list of waiters.
  have hmem : ∀ {b k}, k ∈ arp.waiters b → k ∈ s.arp.waiters b ∨ b = paddr ∧ k = s.asked.length := by
    intro b k hk
    rw [hwaiters] at hk
    split at hk
    · rename_i hb
      subst hb
      rcases List.mem_append.mp hk with hk | hk
      · exact .inl hk
      · exact .inr ⟨rfl, List.mem_singleton.mp hk⟩
    · exact .inl hk
  constructor
  · intro b k hk
    show (s.asked ++ [paddr])[k]? = some b
    rcases hmem hk with hk | ⟨rfl, rfl⟩
    · exact (List.getElem?_append_left (hlt hk)).trans (h.asked b k hk)
    · exact List.getElem?_concat_length
  · intro b
    show (arp.waiters b).Nodup
    rw [hwaiters]
    split
    · exact nodup_snoc (h.nodup paddr) fun k hk => hlt hk
    · exact h.nodup b
  · intro b k hk
    rcases hmem hk with hk | ⟨-, rfl⟩
    · exact h.waits b k hk
    · exact fun hresolved => Nat.lt_irrefl _ (h.lt _ hresolved)
  · intro k hk
    show k < (s.asked ++ [paddr]).length
    rw [List.length_append, List.length_singleton]
    exact Nat.lt_succ_of_lt (h.lt k hk)
  · intro addr hw hentry
    exact h.table addr hw (htable ▸ hentry)
  · refine ⟨h.sound.once, h.sound.learned, fun b => ?_⟩
    show (arp.waiters b).length ≤ maxWaiters
    rw [hwaiters]
    split
    · rw [List.length_append, List.length_singleton]
      exact hroom
    · exact h.sound.bounded b

/-! ### The calls -/

/-- What a lookup does with the table and the waiters. -/
inductive LookupResult (s : ArpFor) (promise : Nat) (paddr : L3Addr) :
    ArpFor × Option ArpAnswer → Prop
  | known (hw : L2Addr) (hentry : s.table paddr = some hw) :
      LookupResult s promise paddr (s, some (.ok hw))
  | full (arp : ArpFor) (hself : arp.l3self = s.l3self) (htable : arp.table = s.table)
      (hwaiters : ∀ b, arp.waiters b = s.waiters b) :
      LookupResult s promise paddr (arp, some (.error .queueFull))
  | waits (arp : ArpFor) (hself : arp.l3self = s.l3self) (htable : arp.table = s.table)
      (hnone : s.table paddr = none) (hroom : (s.waiters paddr).length < maxWaiters)
      (hwaiters : ∀ b, arp.waiters b =
        if b = paddr then s.waiters paddr ++ [promise] else s.waiters b) :
      LookupResult s promise paddr (arp, none)

/-- A new entry has no waiters. -/
theorem openEntry_spec (s : ArpFor) (paddr : L3Addr) :
    (s.openEntry paddr).l3self = s.l3self ∧ (s.openEntry paddr).table = s.table ∧
      ∀ b, (s.openEntry paddr).waiters b = s.waiters b := by
  rw [ArpFor.openEntry]
  cases hprogress : s.inProgress paddr with
  | some ks => exact ⟨rfl, rfl, fun _ => rfl⟩
  | none =>
    refine ⟨rfl, rfl, fun b => ?_⟩
    rw [waiters_update]
    split
    · rename_i hb
      rw [hb, ArpFor.waiters, hprogress]
      rfl
    · rfl

/-- What a lookup does: it answers, or it waits. -/
theorem lookup_result (s : ArpFor) (promise : Nat) (paddr : L3Addr) :
    LookupResult s promise paddr (s.lookup promise paddr) := by
  obtain ⟨hself, htable, hwaiters⟩ := openEntry_spec s paddr
  rw [ArpFor.lookup]
  cases hentry : s.table paddr with
  | some hw => exact .known hw hentry
  | none =>
    dsimp only
    rw [hwaiters]
    split
    · exact .full _ hself htable hwaiters
    · rename_i hroom
      refine .waits _ hself htable hentry (Nat.not_le.mp hroom) fun b => ?_
      rw [waiters_update, hwaiters]
      rfl

/-- Learning an address takes all its waiters and no others. -/
theorem learn_waiters (s : ArpFor) (hwaddr : L2Addr) (paddr b : L3Addr) :
    (s.learn hwaddr paddr).1.waiters b = if b = paddr then [] else s.waiters b :=
  waiters_update s _ _ paddr none b

/-- The timer of an entry that is there. -/
theorem timeout_spec {s arp : ArpFor} {paddr : L3Addr} {promises : List Nat}
    (h : s.timeout paddr = some (arp, promises)) :
    arp.l3self = s.l3self ∧ arp.table = s.table ∧ promises = s.waiters paddr ∧
      ∀ b, arp.waiters b = if b = paddr then [] else s.waiters b := by
  obtain ⟨ks, hks, heq⟩ := Option.map_eq_some_iff.mp h
  cases heq
  refine ⟨rfl, rfl, ?_, waiters_update s _ _ paddr (some [])⟩
  rw [ArpFor.waiters, hks]
  rfl

/-- The table after `set_self_addr` has the new entries and some of the old ones. -/
theorem setSelfAddr_table {l2self : L2Addr} {s : ArpFor} {addr b : L3Addr} :
    (s.setSelfAddr l2self addr).table b =
      match (fixedPeer addr).filter fun peer => b = peer.1 with
      | some peer => some peer.2
      | none => if b = addr then some l2self else if b = s.l3self then none else s.table b := by
  rw [ArpFor.setSelfAddr]
  cases fixedPeer addr with
  | none => simp only [Option.filter_none, Function.update_apply]
  | some peer =>
    simp only [Option.filter_some, Function.update_apply, decide_eq_true_eq]
    split
    · rfl
    · rfl

/-- What `set_self_addr` gives to `arp_for`. -/
theorem learnSelf_apply {l2self : L2Addr} {learned : L3Addr → Option L2Addr} {addr b : L3Addr} :
    learnSelf learned l2self addr b =
      match (fixedPeer addr).filter fun peer => b = peer.1 with
      | some peer => some peer.2
      | none => if b = addr then some l2self else learned b := by
  rw [learnSelf]
  cases fixedPeer addr with
  | none => simp only [Option.filter_none, Function.update_apply]
  | some peer =>
    simp only [Option.filter_some, Function.update_apply, decide_eq_true_eq]
    split
    · rfl
    · rfl

section
variable {l2self : L2Addr} {s t : ArpSession}

/-- Every call keeps the invariant. -/
theorem Inv.step (h : Inv s) {call : ArpCall} (hstep : s.step l2self call = some t) : Inv t := by
  cases call with
  | lookup paddr =>
    have hresult := lookup_result s.arp s.asked.length paddr
    simp only [ArpSession.step] at hstep
    generalize s.arp.lookup s.asked.length paddr = r at hresult hstep
    cases hresult with
    | known hw hentry =>
      cases hstep
      refine h.answered (fun _ => rfl) rfl fun hw' hvalue => ?_
      cases hvalue
      exact h.table paddr hw hentry
    | full arp hself htable hwaiters =>
      cases hstep
      exact h.answered hwaiters htable fun hw hvalue => nomatch hvalue
    | waits arp hself htable hnone hroom hwaiters =>
      cases hstep
      exact h.waiting hwaiters hroom htable
  | learn hwaddr paddr =>
    cases hstep
    refine h.resolve (learn_waiters s.arp hwaddr paddr) ?_ ?_
    · intro addr hw hentry
      change Function.update s.arp.table paddr (some hwaddr) addr = some hw at hentry
      rw [Function.update_apply] at hentry ⊢
      split
      · rwa [if_pos ‹_›] at hentry
      · rw [if_neg ‹_›] at hentry
        exact h.table addr hw hentry
    · intro hw hvalue
      cases hvalue
      exact Function.update_self _ _ _
  | setSelfAddr addr =>
    cases hstep
    -- Nobody is resolved here, and the table changes together with what was learned.
    refine ⟨h.asked, h.nodup, h.waits, h.lt, ?_, ⟨h.sound.once, h.sound.learned, h.sound.bounded⟩⟩
    intro b hw hentry
    change (s.arp.setSelfAddr l2self addr).table b = some hw at hentry
    show learnSelf s.learned l2self addr b = some hw
    rw [setSelfAddr_table] at hentry
    rw [learnSelf_apply]
    split at hentry
    · exact hentry
    · split at hentry
      · rwa [if_pos ‹_›]
      · rw [if_neg ‹_›]
        split at hentry
        · cases hentry
        · exact h.table b hw hentry
  | timeout paddr =>
    obtain ⟨⟨arp, promises⟩, htimeout, rfl⟩ := Option.map_eq_some_iff.mp hstep
    obtain ⟨-, htable, rfl, hwaiters⟩ := timeout_spec htimeout
    refine h.resolve hwaiters (fun addr hw hentry => ?_) fun hw hvalue => nomatch hvalue
    exact h.table addr hw (htable ▸ hentry)

/-- One call strands nobody, exactly when it writes no entry for an address that somebody waits for. -/
theorem noneStranded_step_iff (hs : NoneStranded s) {call : ArpCall}
    (hstep : s.step l2self call = some t) : NoneStranded t ↔ WritesFree s call := by
  cases call with
  | lookup paddr =>
    refine iff_of_true ?_ trivial
    have hresult := lookup_result s.arp s.asked.length paddr
    simp only [ArpSession.step] at hstep
    generalize s.arp.lookup s.asked.length paddr = r at hresult hstep
    intro addr hw hentry
    cases hresult with
    | known hw' hentry' =>
      cases hstep
      exact hs addr hw hentry
    | full arp hself htable hwaiters =>
      cases hstep
      exact (hwaiters addr).trans (hs addr hw (htable ▸ hentry))
    | waits arp hself htable hnone hroom hwaiters =>
      cases hstep
      change arp.table addr = some hw at hentry
      rw [htable] at hentry
      -- The address has no entry, so it is not the one that the lookup waits for.
      have hne : addr ≠ paddr := by
        rintro rfl
        exact nomatch hnone.symm.trans hentry
      exact ((hwaiters addr).trans (if_neg hne)).trans (hs addr hw hentry)
  | learn hwaddr paddr =>
    refine iff_of_true ?_ trivial
    cases hstep
    intro addr hw hentry
    refine (learn_waiters s.arp hwaddr paddr addr).trans ?_
    split
    · rfl
    · change Function.update s.arp.table paddr (some hwaddr) addr = some hw at hentry
      rw [Function.update_of_ne ‹_›] at hentry
      exact hs addr hw hentry
  | setSelfAddr addr =>
    cases hstep
    constructor
    · intro ht
      have hentry : ∀ b, b = addr ∨ (∃ peer ∈ fixedPeer addr, b = peer.1) →
          s.arp.waiters b = [] := by
        intro b hb
        suffices hsome : ∃ hw, (s.arp.setSelfAddr l2self addr).table b = some hw by
          obtain ⟨hw, hentry⟩ := hsome
          exact ht b hw hentry
        rw [setSelfAddr_table]
        split
        · exact ⟨_, rfl⟩
        · rename_i hnone
          rcases hb with hb | ⟨peer, hpeer, hb⟩
          · exact ⟨l2self, if_pos hb⟩
          · rw [Option.mem_def.mp hpeer, Option.filter_some, if_pos (decide_eq_true hb)] at hnone
            cases hnone
      exact ⟨hentry addr (.inl rfl), fun peer hpeer => hentry _ (.inr ⟨peer, hpeer, rfl⟩)⟩
    · rintro ⟨haddr, hpeer⟩ b hw hentry
      change (s.arp.setSelfAddr l2self addr).table b = some hw at hentry
      show s.arp.waiters b = []
      rw [setSelfAddr_table] at hentry
      split at hentry
      · rename_i peer hfilter
        obtain ⟨hmem, hb⟩ := Option.filter_eq_some_iff.mp hfilter
        rw [of_decide_eq_true hb]
        exact hpeer peer hmem
      · split at hentry
        · rename_i hb
          rw [hb]
          exact haddr
        · split at hentry
          · cases hentry
          · exact hs b hw hentry
  | timeout paddr =>
    refine iff_of_true ?_ trivial
    obtain ⟨⟨arp, promises⟩, htimeout, rfl⟩ := Option.map_eq_some_iff.mp hstep
    obtain ⟨-, htable, -, hwaiters⟩ := timeout_spec htimeout
    intro addr hw hentry
    refine (hwaiters addr).trans ?_
    split
    · rfl
    · exact hs addr hw (htable ▸ hentry)

/-- The broadcast address is resolved exactly when the table has it. -/
theorem resolvesBroadcast_iff (s : ArpSession) :
    ResolvesBroadcast s ↔ s.arp.table l3Broadcast = some etherBroadcast := by
  constructor
  · intro h
    have hresult := lookup_result s.arp 0 l3Broadcast
    have hzero := h 0
    generalize s.arp.lookup 0 l3Broadcast = r at hresult hzero
    cases hresult with
    | known hw hentry =>
      cases hzero
      exact hentry
    | full arp hself htable hwaiters => cases hzero
    | waits arp hself htable hnone hroom hwaiters => cases hzero
  · intro h k
    rw [ArpFor.lookup, h]

/-- The peer that is set by hand does not have the broadcast address. -/
theorem fixedPeer_ne {addr : L3Addr} : ∀ peer ∈ fixedPeer addr, l3Broadcast ≠ peer.1 := by
  intro peer hpeer
  unfold fixedPeer at hpeer
  split at hpeer
  · cases hpeer
    decide
  · split at hpeer
    · cases hpeer
      decide
    · cases hpeer

/-- One call keeps the entry of the broadcast address, exactly when it spares it. -/
theorem resolvesBroadcast_step_iff (hs : ResolvesBroadcast s) {call : ArpCall}
    (hstep : s.step l2self call = some t) : ResolvesBroadcast t ↔ SparesBroadcast l2self s call := by
  rw [resolvesBroadcast_iff] at hs ⊢
  cases call with
  | lookup paddr =>
    refine iff_of_true ?_ trivial
    have hresult := lookup_result s.arp s.asked.length paddr
    simp only [ArpSession.step] at hstep
    generalize s.arp.lookup s.asked.length paddr = r at hresult hstep
    cases hresult with
    | known hw hentry =>
      cases hstep
      exact hs
    | full arp hself htable hwaiters =>
      cases hstep
      exact (congrFun htable _).trans hs
    | waits arp hself htable hnone hroom hwaiters =>
      cases hstep
      exact (congrFun htable _).trans hs
  | learn hwaddr paddr =>
    cases hstep
    show Function.update s.arp.table paddr (some hwaddr) l3Broadcast = some etherBroadcast ↔
      (paddr = l3Broadcast → hwaddr = etherBroadcast)
    rw [Function.update_apply]
    split
    · rename_i hb
      rw [Option.some_inj]
      exact ⟨fun heq _ => heq, fun heq => heq hb.symm⟩
    · rename_i hb
      exact iff_of_true hs fun heq => absurd heq.symm hb
  | setSelfAddr addr =>
    cases hstep
    show (s.arp.setSelfAddr l2self addr).table l3Broadcast = some etherBroadcast ↔
      if addr = l3Broadcast then l2self = etherBroadcast else s.arp.l3self ≠ l3Broadcast
    -- The fixed peer of an address is never the broadcast address.
    have hpeer : (fixedPeer addr).filter (fun peer => l3Broadcast = peer.1) = none := by
      rw [Option.filter_eq_none_iff]
      exact fun peer hpeer hb => fixedPeer_ne peer hpeer (of_decide_eq_true hb)
    rw [setSelfAddr_table, hpeer]
    dsimp only
    by_cases haddr : addr = l3Broadcast
    · rw [if_pos haddr, if_pos haddr.symm, Option.some_inj]
    · rw [if_neg haddr, if_neg fun heq => haddr heq.symm]
      by_cases hself : s.arp.l3self = l3Broadcast
      · rw [if_pos hself.symm]
        exact iff_of_false (fun hnone => nomatch hnone) fun hne => hne hself
      · rw [if_neg fun heq => hself heq.symm]
        exact iff_of_true hs hself
  | timeout paddr =>
    refine iff_of_true ?_ trivial
    obtain ⟨⟨arp, promises⟩, htimeout, rfl⟩ := Option.map_eq_some_iff.mp hstep
    obtain ⟨-, htable, -, -⟩ := timeout_spec htimeout
    exact (congrFun htable _).trans hs

end

/-! ### The runs -/

/-- No run resolves a future twice or with an address that was not the last one learned, and no more
than 512 lookups wait for an address. -/
theorem sound_always (l2self : L2Addr) (calls : List ArpCall) :
    Always (ArpSession.step l2self) Sound ArpSession.create calls :=
  have hguarded : Guarded (ArpSession.step l2self) (fun _ _ => True) ArpSession.create calls :=
    guarded_of_forall (fun _ _ _ => trivial) _
  always_of_guarded Inv (fun _ h => h.sound) (fun _ _ _ h _ hstep => h.step hstep) Inv.create
    hguarded

/-- The four properties hold in every state of a run, exactly when each `set_self_addr` writes no entry
for an address that somebody waits for, and the broadcast address is neither replaced nor given another
hardware address. -/
theorem arpRight_iff (l2self : L2Addr) (calls : List ArpCall) :
    Always (ArpSession.step l2self) ArpRight ArpSession.create calls ↔
      Guarded (ArpSession.step l2self) (fun s call => WritesFree s call ∧ SparesBroadcast l2self s call)
        ArpSession.create calls := by
  refine always_iff_guarded Inv (fun _ _ _ h _ hstep => h.step hstep) ?_ Inv.create ?_ calls
  · intro s call t h hright hstep
    have hstranded := noneStranded_step_iff hright.noneStranded hstep
    have hbroadcast := resolvesBroadcast_step_iff hright.resolvesBroadcast hstep
    constructor
    · exact fun ht => ⟨hstranded.mp ht.noneStranded, hbroadcast.mp ht.resolvesBroadcast⟩
    · exact fun hok => ⟨(h.step hstep).sound, hstranded.mpr hok.1, hbroadcast.mpr hok.2⟩
  · refine ⟨Inv.create.sound, fun _ _ _ => rfl, ?_⟩
    exact (resolvesBroadcast_iff _).mpr rfl

/-- The first `set_self_addr` erases the broadcast address. -/
theorem not_arpRight_of_setSelfAddr :
    ¬∀ (l2self : L2Addr) (calls : List ArpCall),
      Always (ArpSession.step l2self) ArpRight ArpSession.create calls := by
  intro h
  have hright := (h 0x3cfdfe060800 [.setSelfAddr 0x0a0a0001]).2 _ rfl
  have hentry := (resolvesBroadcast_iff _).mp hright.resolvesBroadcast
  exact nomatch hentry

end Netstar.Proofs.Net.ArpSession
