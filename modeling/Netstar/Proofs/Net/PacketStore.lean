import Netstar.Proofs.Net.PacketAsserts

/-!
# `Netstar.Proofs.Net.PacketStore`: programs over packets are programs over bytes

`Reaches s b` runs a program on packets and on lists of bytes at once. `Related` is the simulation:
every packet represents the bytes in the same place. `packet_refines_bytes` is the result: an allowed
operation succeeds if its assertions hold, and otherwise it stops at one of them.

An operation is `Allowed` when it names packets that exist, when the bytes fit into the 32 bits of
`_len`, when `share` asks for a range of the packet, and when nothing is prepended to a packet whose
internal data `trim_back` has cut. A packet without bytes but with two fragments must not be
linearized.
-/

set_option autoImplicit false

namespace Netstar.Proofs.Net

open Netstar.Lib (ok_bind)
open Netstar.Spec.Net
open Netstar.Spec.Net.PacketImpl (ofFrags ofCopy linearize prependCopy)

/-- The bytes `c` are in the place `i`. -/
def Holds (b : ByteStore) (i : Nat) (c : List UInt8) : Prop := b[i]? = some (some c)

/-- `_len` counts up to here. -/
def lenLimit : Nat := 2 ^ 32

/-- The operations that a program may use. -/
def Allowed (s : PacketStore) (b : ByteStore) : PacketOp → Prop
  | .empty | .withFrags _ => True
  | .ofCopy bytes => bytes.length < lenLimit
  | .ofFrags frags => frags.flatten.length < lenLimit
  | .appendFrag i bytes => ∃ c, Holds b i c ∧ (c ++ bytes).length < lenLimit
  | .prependCopy i bytes | .prependHeader i bytes =>
    ∃ c, Holds b i c ∧ (bytes ++ c).length < lenLimit ∧ ∃ p, s[i]? = some (some ⟨p, false⟩)
  | .append i j => i ≠ j ∧ ∃ c c', Holds b i c ∧ Holds b j c' ∧ (c ++ c').length < lenLimit
  | .trimFront i _ | .trimBack i _ | .getHeader i _ _ | .reserve i _ | .release i => ∃ c, Holds b i c
  | .share i offset len => ∃ c, Holds b i c ∧ offset + len ≤ c.length
  | .linearize i => ∃ c, Holds b i c ∧
      (c = [] → ∀ x, s[i]? = some (some x) → x.impl.nrFrags ≤ 1)

/-- A program has run on packets and on bytes. -/
inductive Reaches : PacketStore → ByteStore → Prop
  | start : Reaches [] []
  | step {s s' : PacketStore} {b : ByteStore} {op : PacketOp} {out : PacketOutput} :
      Reaches s b → Allowed s b op → s.step op = .ok (s', out) → Reaches s' (b.byteStep op)

/-- Each packet shows the bytes in its place, and `_len` is the sum of the fragment sizes. -/
def Shows (s : PacketStore) (b : ByteStore) : Prop :=
  s.map (Option.map fun x => x.impl.frags.flatMap (·.bytes)) = b ∧
    ∀ x, some x ∈ s → x.impl.len = (x.impl.frags.map Fragment.size).sum

/-- The pointer and the buffers that an operation returns. -/
def OutputOk (b : ByteStore) : PacketOp → PacketOutput → Prop
  | .getHeader i offset size, out => ∃ mem, out = .header mem ∧
      ((b.bytes i).length < offset + size → mem = none) ∧
      (offset + size ≤ (b.bytes i).length → 0 < size →
        ∃ bytes, mem = some bytes ∧ bytes.take size = ((b.bytes i).drop offset).take size)
  | .release i, out => ∃ bufs, out = .buffers bufs ∧ bufs.flatten = b.bytes i
  | _, out => out = .none

/-! ### The simulation -/

/-- A packet represents the bytes. -/
def SlotRep : Option PacketSlot → Option (List UInt8) → Prop
  | some x, some c => Rep x.impl x.trimmed c
  | none, none => True
  | _, _ => False

/-- The packets of the store hold the bytes of the abstract store, slot by slot. -/
def Related (s : PacketStore) (b : ByteStore) : Prop := List.Forall₂ SlotRep s b

variable {s : PacketStore} {b : ByteStore}

/-- A slot with bytes has a packet that holds them. -/
theorem Related.slot {i : Nat} {c : List UInt8} (h : Related s b) (hb : Holds b i c) :
    ∃ x, s[i]? = some (some x) ∧ s.slot i = .ok x ∧ Rep x.impl x.trimmed c := by
  have hget : ∃ x, s[i]? = some (some x) ∧ Rep x.impl x.trimmed c := by
    unfold Holds at hb
    induction h generalizing i with
    | nil => simp at hb
    | @cons x _ _ _ hx _ ih =>
      cases i with
      | zero =>
        rw [List.getElem?_cons_zero, Option.some.injEq] at hb
        subst hb
        cases x with
        | none => exact hx.elim
        | some x => exact ⟨x, rfl, hx⟩
      | succ i => exact ih hb
  obtain ⟨x, hget, hrep⟩ := hget
  exact ⟨x, hget, by simp [PacketStore.slot, hget], hrep⟩

/-- Replacing both sides of a slot keeps the relation. -/
theorem Related.set {i : Nat} {x : Option PacketSlot} {c : Option (List UInt8)} (h : Related s b)
    (hx : SlotRep x c) : Related (s.set i x) (b.set i c) := by
  unfold Related
  induction h generalizing i with
  | nil => exact .nil
  | cons hy h ih =>
    cases i with
    | zero => exact .cons hx h
    | succ i => exact .cons hy ih

/-- A new packet with its bytes keeps the relation. -/
theorem Related.concat {x : PacketSlot} {c : List UInt8} (h : Related s b)
    (hx : Rep x.impl x.trimmed c) : Related (s ++ [some x]) (b ++ [some c]) := by
  unfold Related
  induction h with
  | nil => exact .cons hx .nil
  | cons hy _ ih => exact .cons hy ih

/-- The bytes of a slot that holds some. -/
theorem Holds.bytes {i : Nat} {c : List UInt8} (h : Holds b i c) : b.bytes i = c := by
  unfold Holds at h
  simp [ByteStore.bytes, h]

/-- A packet that keeps its bytes. -/
theorem Holds.set {i : Nat} {c : List UInt8} (h : Holds b i c) : b.set i (some c) = b := by
  obtain ⟨hi, hget⟩ := List.getElem?_eq_some_iff.mp h
  rw [← hget, List.set_getElem_self]

/-- Related stores show the same. -/
theorem Related.shows (h : Related s b) : Shows s b := by
  unfold Shows
  induction h with
  | nil => exact ⟨rfl, by simp⟩
  | @cons x c s b hx _ ih =>
    have hx' : x.map (fun x => x.impl.frags.flatMap (·.bytes)) = c ∧
        ∀ y, x = some y → y.impl.len = (y.impl.frags.map Fragment.size).sum := by
      match x, c, hx with
      | none, none, _ => simp
      | some x, some c, hx =>
        refine ⟨congrArg some hx.content, ?_⟩
        rintro _ ⟨⟩
        rw [hx.len, ← hx.content, content, List.length_flatMap]
        rfl
    refine ⟨by rw [List.map_cons, hx'.1, ih.1], ?_⟩
    intro y hy
    rcases List.mem_cons.mp hy with hy | hy
    · exact hx'.2 y hy.symm
    · exact ih.2 y hy

/-! ### One operation -/

/-- What holds after an allowed operation. -/
def StepOk (b : ByteStore) (op : PacketOp) (r : PacketStore × PacketOutput) : Prop :=
  Related r.1 (b.byteStep op) ∧ OutputOk b op r.2

/-- The operation builds a packet with the bytes `c`. -/
theorem build_spec {p : Except PacketError PacketImpl} {c : List UInt8} {holds : Prop}
    (h : Related s b) (hp : Asserts holds (fun p => Rep p false c) p) :
    Asserts holds (fun r => Related r.1 (b ++ [some c]) ∧ r.2 = .none) (s.build p) := by
  apply hp.bind
  intro p hp
  exact ⟨h.concat hp, rfl⟩

/-- The operation changes one packet from the bytes `c` to the bytes `c'`. -/
theorem update_spec {i : Nat} {c : List UInt8} (holds : PacketImpl → Prop)
    (f : PacketImpl → Except PacketError PacketImpl) (c' : List UInt8) (h : Related s b)
    (hb : Holds b i c)
    (hf : ∀ x, s[i]? = some (some x) → Rep x.impl x.trimmed c →
      Asserts (holds x.impl) (fun p => Rep p x.trimmed c') (f x.impl)) :
    Asserts (AtSlot s i holds) (fun r => Related r.1 (b.set i (some c')) ∧ r.2 = .none)
      (s.update i f) := by
  obtain ⟨x, hget, hslot, hx⟩ := h.slot hb
  unfold PacketStore.update
  rw [hslot, ok_bind]
  apply ((hf x hget hx).imp fun hat => hat x hget).bind
  intro p hp
  exact ⟨h.set hp, rfl⟩

/-- What one operation does, and which assertions it makes. -/
theorem step_spec {op : PacketOp} (h : Related s b) (hop : Allowed s b op) :
    Asserts (PacketAssertsHold s op) (StepOk b op) (s.step op) := by
  cases op with
  | empty =>
    have hempty := (allocate_spec 1).imp fun _ : True => by decide
    exact build_spec h (hempty.mono fun p hp => hp.1)
  | withFrags nrFrags =>
    apply build_spec h
    exact (allocate_spec nrFrags).mono fun p hp => hp.1
  | ofCopy bytes =>
    have hcopy : Asserts True (fun p => Rep p false bytes) (.ok (ofCopy bytes)) := ofCopy_spec hop
    exact build_spec h hcopy
  | ofFrags frags => exact build_spec h (ofFrags_spec hop)
  | appendFrag i bytes =>
    obtain ⟨c, hc, hshort⟩ := hop
    obtain rfl := hc.bytes
    exact update_spec (ArrayGrows · 1) (·.appendFrag bytes) _ h hc fun x _ hx => appendFrag_spec hx hshort
  | prependCopy i bytes =>
    obtain ⟨c, hc, hshort, p, hp⟩ := hop
    obtain rfl := hc.bytes
    refine update_spec (PrependGrows · bytes.length) (PacketImpl.prependCopy bytes)
      (bytes ++ b.bytes i) h hc ?_
    intro x hget hx
    obtain rfl : x = ⟨p, false⟩ := by simpa [hget] using hp
    exact prependCopy_spec hx hshort
  | prependHeader i bytes =>
    obtain ⟨c, hc, hshort, p, hp⟩ := hop
    obtain rfl := hc.bytes
    refine update_spec (PrependGrows · bytes.length) (·.prependUninitializedHeader bytes)
      (bytes ++ b.bytes i) h hc ?_
    intro x hget hx
    obtain rfl : x = ⟨p, false⟩ := by simpa [hget] using hp
    exact prependUninitializedHeader_spec hx hshort
  | append i j =>
    -- The appended packet is moved away, so this operation changes two slots and does not fit
    -- `update_spec`.
    obtain ⟨_, c, c', hc, hc', hshort⟩ := hop
    obtain rfl := hc.bytes
    obtain rfl := hc'.bytes
    obtain ⟨x, hget, hslot, hx⟩ := h.slot hc
    obtain ⟨y, hget', hslot', hy⟩ := h.slot hc'
    have hlen : (b.bytes i = []) = (x.impl.len = 0) := by
      rw [hx.len, List.length_eq_zero_iff]
    unfold PacketStore.step
    simp only [hslot, hslot', ok_bind]
    have happend := (append_spec hx hy hshort).imp fun hat : PacketAssertsHold s (.append i j) =>
      (hat x hget).imp_right fun hgrows => hgrows y hget'
    apply happend.bind
    intro p hp
    simp only [hlen] at hp
    have hset := h.set (i := i) (c := some (b.bytes i ++ b.bytes j)) (x := some ⟨p, _⟩) hp
    exact ⟨hset.set trivial, rfl⟩
  | trimFront i howMuch =>
    obtain ⟨c, hc⟩ := hop
    obtain rfl := hc.bytes
    exact update_spec (howMuch ≤ ·.len) (·.trimFront howMuch) _ h hc fun x _ hx =>
      (trimFront_spec hx).mono fun p hp => hp.2
  | trimBack i howMuch =>
    obtain ⟨c, hc⟩ := hop
    obtain rfl := hc.bytes
    obtain ⟨x, hget, hslot, hx⟩ := h.slot hc
    unfold PacketStore.step
    simp only [hslot, ok_bind]
    apply ((trimBack_spec hx).imp fun hat : PacketAssertsHold s (.trimBack i howMuch) => hat x hget).bind
    intro p hp
    exact ⟨h.set (c := some _) (x := some ⟨p, _⟩) hp.2, rfl⟩
  | share i offset len =>
    obtain ⟨c, hc, hbounds⟩ := hop
    obtain ⟨x, _, hslot, hx⟩ := h.slot hc
    unfold PacketStore.step
    simp only [hslot, ok_bind]
    -- Sharing keeps the content of the packet and adds a new one that points into the same bytes.
    apply (share_spec hx hbounds).bind
    rintro ⟨p, n⟩ ⟨hp, hn⟩
    have hset := h.set (i := i) (x := some { x with impl := p }) (c := some c) hp
    rw [hc.set] at hset
    obtain rfl := hc.bytes
    exact ⟨hset.concat (x := ⟨n, false⟩) hn, rfl⟩
  | linearize i =>
    obtain ⟨c, hc, hempty⟩ := hop
    have hspec := update_spec (fun _ => True) (·.linearize) c h hc (by
      intro x hget hx
      obtain ⟨q, hq, hrep⟩ := linearize_spec hx fun hnil => hempty hnil x hget
      rw [hq]
      exact hrep.weaken)
    rw [hc.set] at hspec
    exact hspec.imp fun _ _ _ => trivial
  | getHeader i offset size =>
    obtain ⟨c, hc⟩ := hop
    obtain ⟨x, _, hslot, hx⟩ := h.slot hc
    obtain ⟨q, mem, hq, hrep, hnone, hsome⟩ := getHeader_spec offset size hx
    unfold PacketStore.step
    simp only [hslot, hq, ok_bind]
    have hset := h.set (i := i) (x := some { x with impl := q }) (c := some c) hrep
    rw [hc.set] at hset
    obtain rfl := hc.bytes
    exact ⟨hset, mem, rfl, hnone, hsome⟩
  | reserve i nFrags =>
    obtain ⟨c, hc⟩ := hop
    have hspec := update_spec (fun p => ArrayGrows p (nFrags - p.nrFrags)) (·.reserve nFrags) c h hc
      fun x _ hx => reserve_spec nFrags hx
    rwa [hc.set] at hspec
  | release i =>
    obtain ⟨c, hc⟩ := hop
    obtain ⟨x, _, hslot, hx⟩ := h.slot hc
    unfold PacketStore.step
    simp only [hslot, ok_bind]
    obtain rfl := hc.bytes
    exact ⟨h, _, rfl, hx.content⟩

/-- The operation stops when the packet stops. -/
theorem update_eq_error {i : Nat} {c : List UInt8} (holds : PacketImpl → Prop)
    (f : PacketImpl → Except PacketError PacketImpl) (h : Related s b) (hb : Holds b i c)
    (hnot : ¬ AtSlot s i holds)
    (hf : ∀ x : PacketSlot, Rep x.impl x.trimmed c → ¬ holds x.impl → f x.impl = .error .assertion) :
    s.update i f = .error .assertion := by
  obtain ⟨x, hget, hslot, hx⟩ := h.slot hb
  have hstop : ¬ holds x.impl := by
    intro hholds
    refine hnot fun y hy => ?_
    cases hget.symm.trans hy
    exact hholds
  rw [PacketStore.update, hslot, ok_bind, hf x hx hstop]
  rfl

/-- An operation whose assertions do not hold stops. -/
theorem step_eq_assertion {op : PacketOp} (h : Related s b) (hop : Allowed s b op)
    (hnot : ¬ PacketAssertsHold s op) : s.step op = .error .assertion := by
  cases op with
  | withFrags nrFrags =>
    rw [PacketStore.step, PacketImpl.withFrags, allocate_eq_error hnot]
    rfl
  | ofFrags frags =>
    rw [PacketStore.step, ofFrags, allocate_eq_error hnot]
    rfl
  | appendFrag i bytes =>
    obtain ⟨c, hc, -⟩ := hop
    refine update_eq_error (ArrayGrows · 1) (·.appendFrag bytes) h hc hnot fun x _ hgrows => ?_
    rw [PacketImpl.appendFrag, allocateIfNeeded_eq_error hgrows]
    rfl
  | prependCopy i bytes =>
    obtain ⟨c, hc, -⟩ := hop
    exact update_eq_error (PrependGrows · bytes.length) (prependCopy bytes) h hc hnot fun x _ hgrows =>
      prependCopy_eq_error hgrows
  | prependHeader i bytes =>
    obtain ⟨c, hc, -⟩ := hop
    exact update_eq_error (PrependGrows · bytes.length) (·.prependUninitializedHeader bytes) h hc hnot
      fun x hx hgrows => prependUninitializedHeader_eq_error hx hgrows
  -- The assertion counts the fragments of both packets.
  | append i j =>
    obtain ⟨_, c, c', hc, hc', -⟩ := hop
    obtain ⟨x, hget, hslot, -⟩ := h.slot hc
    obtain ⟨y, hget', hslot', -⟩ := h.slot hc'
    have hstop : ¬ (x.impl.len = 0 ∨ ArrayGrows x.impl y.impl.nrFrags) := by
      intro hholds
      refine hnot fun x' hx' => ?_
      cases hget.symm.trans hx'
      refine hholds.imp_right fun hgrows y' hy' => ?_
      cases hget'.symm.trans hy'
      exact hgrows
    rw [PacketStore.step, hslot, ok_bind, hslot', ok_bind, append_eq_error hstop]
    rfl
  | trimFront i howMuch =>
    obtain ⟨c, hc⟩ := hop
    exact update_eq_error (howMuch ≤ ·.len) (·.trimFront howMuch) h hc hnot fun x _ hle =>
      trimFront_eq_error hle
  | trimBack i howMuch =>
    obtain ⟨c, hc⟩ := hop
    obtain ⟨x, hget, hslot, -⟩ := h.slot hc
    have hstop : ¬ howMuch ≤ x.impl.len := by
      intro hholds
      refine hnot fun x' hx' => ?_
      cases hget.symm.trans hx'
      exact hholds
    rw [PacketStore.step, hslot, ok_bind, trimBack_eq_error hstop]
    rfl
  | reserve i nFrags =>
    obtain ⟨c, hc⟩ := hop
    exact update_eq_error (fun p => ArrayGrows p (nFrags - p.nrFrags)) (·.reserve nFrags) h hc hnot
      fun x hx hgrows => reserve_eq_error hx hgrows
  -- These assert nothing.
  | empty | ofCopy | share | linearize | getHeader | release => exact absurd trivial hnot

/-- A program keeps the simulation. -/
theorem Reaches.related (h : Reaches s b) : Related s b := by
  induction h with
  | start => exact .nil
  | step _ hop hstep ih =>
    have hspec := step_spec ih hop
    rw [hstep] at hspec
    exact hspec.1

/-- A packet is a list of bytes, in every state of every program. An allowed operation succeeds if its
assertions hold, and otherwise it stops at one of them. -/
theorem packet_refines_bytes (h : Reaches s b) :
    Shows s b ∧ ∀ op, Allowed s b op →
      (PacketAssertsHold s op → ∃ s' out, s.step op = .ok (s', out) ∧ Shows s' (b.byteStep op) ∧
        OutputOk b op out) ∧
      (¬ PacketAssertsHold s op → s.step op = .error .assertion) := by
  refine ⟨h.related.shows, fun op hop => ⟨fun hholds => ?_, step_eq_assertion h.related hop⟩⟩
  rcases (step_spec h.related hop).cases with ⟨e, -, -, hnot⟩ | ⟨⟨s', out⟩, hok, hrel, hout⟩
  · exact absurd hholds hnot
  · exact ⟨s', out, hok, hrel.shows, hout⟩

/-- A program copies three bytes into a packet, prepends a header, and shares two bytes. -/
theorem packet_refines_bytes_shared :
    ∃ s, Reaches s [some [9, 1, 2, 3], some [1, 2]] ∧
      Shows s [some [9, 1, 2, 3], some [1, 2]] ∧
      ∃ s' out, s.step (.append 0 1) = .ok (s', out) ∧
        Shows s' [some [9, 1, 2, 3, 1, 2], none] := by
  have hcopy := @Reaches.step _ _ _ (.ofCopy [1, 2, 3]) _ .start (show 3 < lenLimit by decide) rfl
  have hheader := @Reaches.step _ _ _ (.prependHeader 0 [9]) _ hcopy
    ⟨[1, 2, 3], rfl, by decide, _, rfl⟩ rfl
  have hshare := @Reaches.step _ _ _ (.share 0 1 2) _ hheader
    ⟨[9, 1, 2, 3], rfl, by decide⟩ rfl
  obtain ⟨hshows, hstep⟩ := packet_refines_bytes hshare
  refine ⟨_, hshare, hshows, ?_⟩
  obtain ⟨s', out, hok, hshows', -⟩ :=
    (hstep (.append 0 1) ⟨by decide, [9, 1, 2, 3], [1, 2], rfl, rfl, by decide⟩).1 (by
      intro x hx
      cases hx
      refine .inr fun y hy => ?_
      cases hy
      exact .inl (by decide))
  exact ⟨s', out, hok, hshows'⟩

/-- `_len` wraps around. -/
theorem ofFrags_wraps {bytes : List UInt8} (h : bytes.length = lenLimit) :
    ∃ p, ofFrags [bytes] = .ok p ∧ p.len ≠ (p.frags.map Fragment.size).sum := by
  refine ⟨_, rfl, ?_⟩
  have hsize : (Fragment.elsewhere bytes).size = lenLimit := h
  simp only [List.foldl_cons, List.foldl_nil, List.map_cons, List.map_nil, List.sum_cons,
    List.sum_nil, hsize, h]
  decide

/-- The limits of `Allowed`. A fragment of `2^32` bytes makes `_len` zero. `share` runs out of
fragments when it asks for too much. `linearize` moves fragments without bytes the wrong way. -/
theorem packet_beyond_allowed :
    (∃ p, ofFrags [List.replicate (2 ^ 32) 0] = .ok p ∧
      p.len ≠ (p.frags.map Fragment.size).sum) ∧
    (ofCopy [1]).share 0 2 = .error .fragIndex ∧
    ∃ p, ofFrags [[], [], [], []] = .ok p ∧ p.linearize = .error .overlap := by
  refine ⟨ofFrags_wraps List.length_replicate, by decide, _, rfl, by decide⟩

end Netstar.Proofs.Net
