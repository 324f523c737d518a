import Netstar.Lib.Run
import Netstar.Proofs.Net.PacketShare
import Netstar.Spec.Net.PacketStore

/-!
# `Netstar.Proofs.Net.PacketHeadroom`: `_headroom` and the fragment in the internal buffer

A fragment in `_data` has free space before it. `_headroom` says how much, and the fragment's base says
it too. `BufferOk` is the invariant of one packet: the first fragment lies in the buffer or elsewhere,
the others lie elsewhere, and `_headroom` is at most the base. It says nothing about `_len`, which counts
modulo `2^32`, so it holds in programs of any size.

All operations but `trim_back` keep it. `trim_back` adds what it cuts off the first fragment to
`_headroom` and leaves the base alone. `CutsWithin` says for one call that the sum is still at most the
base.
-/

set_option autoImplicit false

namespace Netstar.Proofs.Net

open Netstar.Lib
open Netstar.Spec.Net
open Netstar.Spec.Net.PacketImpl

/-- The fragments of the packet lie in the right places. -/
def BufferOk (p : PacketImpl) : Prop := Layout p false (content p.frags)

/-- The fragment in `_data` is inside, `_headroom` is at most its base, the header that
`allocate_headroom` makes room for lies in `_data`, and so does the copy of the fragment in a larger
packet. -/
structure InsideBuffer (p : PacketImpl) : Prop where
  base : ∀ off bytes frags, p.frags = ⟨some off, bytes⟩ :: frags → off < internalDataSize →
    off + bytes.length ≤ internalDataSize ∧ p.headroom ≤ off
  prepend : ∀ bytes : List UInt8, bytes.length ≤ p.headroom →
    p.fillHeadroom bytes ≠ .error .outOfBounds
  copy : ∀ nr, p.nrFrags ≤ nr → p.copy nr ≠ .error .outOfBounds

/-- Every packet of the program. -/
def AllInside (s : PacketStore) : Prop := ∀ x, some x ∈ s → InsideBuffer x.impl

/-- A `trim_back` that stops in the first fragment, which lies in `_data`, cuts off at most the space
between `_headroom` and the base. -/
def CutsWithin (s : PacketStore) : PacketOp → Prop
  | .trimBack i howMuch => ∀ x, s[i]? = some (some x) → ∀ left off bytes,
      skipFrags howMuch x.impl.frags.reverse = .ok (left, [⟨some off, bytes⟩]) →
      off < internalDataSize → x.impl.headroom + left ≤ off
  | _ => True

section
variable {p q : PacketImpl} {c : List UInt8}

/-- A packet whose back was not trimmed has its buffer in order. -/
theorem Layout.bufferOk (h : Layout p false c) : BufferOk p := by
  rw [BufferOk, h.content]
  exact h

/-- An operation that only asserts stays inside its arrays. -/
theorem ne_outOfBounds {α : Type} {holds : Prop} {P : α → Prop} {x : Except PacketError α}
    (h : Asserts holds P x) :
    x ≠ .error .outOfBounds := by
  rintro rfl
  cases h.1

/-- A buffer in order is used inside its bounds. -/
theorem BufferOk.insideBuffer (h : BufferOk p) : InsideBuffer p where
  base := by
    intro off bytes frags hp hoff
    have hhead := h.frags
    rw [hp] at hhead
    rcases hhead.1 with hout | ⟨off', -, hbase, hend, -, hroom⟩
    · rcases hout with hnone | ⟨hsome, -⟩
      · cases hnone
      · cases hsome
        exact absurd hoff (Nat.lt_irrefl _)
    · cases hbase
      exact ⟨hend, hroom rfl⟩
  prepend := fun _ hbytes => ne_outOfBounds (fillHeadroom_layout h hbytes)
  copy := fun _ hnr => ne_outOfBounds (copy_spec h hnr)

/-! ### The operations -/

/-- An index that passes is below the bound. -/
theorem lt_of_inBounds {i n : Nat} {u : Unit} (h : inBounds i n = .ok u) : i < n := by
  unfold inBounds at h
  split at h
  · assumption
  · cases h

/-- Growing the array keeps the buffer in order. -/
theorem bufferOk_allocateIfNeeded (h : BufferOk p) {extra : Nat}
    (hok : p.allocateIfNeeded extra = .ok q) : BufferOk q :=
  ((allocateIfNeeded_spec extra h).result hok).1.bufferOk

/-- Appending keeps the buffer in order. -/
theorem bufferOk_append (hp : BufferOk p) (hq : BufferOk q) {r : PacketImpl}
    (hok : p.append q = .ok r) : BufferOk r := by
  by_cases hzero : p.len = 0
  · unfold append at hok
    rw [if_pos hzero] at hok
    cases hok
    exact hq
  · exact ((append_layout hp hq hzero).result hok).1.bufferOk

/-- The loop of the two trims stops in front of a fragment that it cuts, or has nothing left. -/
theorem skipFrags_ok {howMuch left : Nat} {frags rest : List Fragment}
    (hok : skipFrags howMuch frags = .ok (left, rest)) :
    ∃ pre, frags = pre ++ rest ∧ (left = 0 ∨ ∃ f tail, rest = f :: tail ∧ left < f.size) := by
  induction frags generalizing howMuch with
  | nil =>
    cases howMuch with
    | zero =>
      cases hok
      exact ⟨[], rfl, .inl rfl⟩
    | succ n => cases hok
  | cons f frags ih =>
    cases howMuch with
    | zero =>
      cases hok
      exact ⟨[], rfl, .inl rfl⟩
    | succ n =>
      rw [skipFrags] at hok
      split at hok
      · obtain ⟨pre, rfl, hleft⟩ := ih hok
        exact ⟨f :: pre, rfl, hleft⟩
      · rename_i hlt
        cases hok
        exact ⟨[], rfl, .inr ⟨f, frags, rfl, Nat.not_le.mp hlt⟩⟩

/-- Trimming the front keeps the buffer in order. -/
theorem bufferOk_trimFront (h : BufferOk p) {howMuch : Nat} (hok : p.trimFront howMuch = .ok q) :
    BufferOk q := by
  obtain ⟨-, -, hok⟩ := bind_eq_ok.mp hok
  obtain ⟨⟨left, rest⟩, hskip, hok⟩ := bind_eq_ok.mp hok
  obtain ⟨pre, hp, hleft⟩ := skipFrags_ok hskip
  have hlayout := dropFrags_layout h hp (p.len - howMuch)
  dsimp only at hok hlayout
  split at hok
  · cases hok
    exact hlayout.bufferOk
  · rename_i hpos
    obtain ⟨f, tail, rfl, hlt⟩ := hleft.resolve_left hpos
    obtain ⟨r, hr, hcut, -⟩ := cutFront_spec hlayout (by split <;> rfl) hlt
    rw [hr] at hok
    cases hok
    exact hcut.bufferOk

/-- The fragments that `trim_back` keeps, before it cuts the last one. -/
theorem layout_keepFrags (h : BufferOk p) {pre rest : List Fragment}
    (hp : p.frags.reverse = pre ++ rest) (n : Nat) :
    Layout { p with len := n, frags := rest.reverse } false (content rest.reverse) := by
  have hp' : p.frags = rest.reverse ++ pre.reverse := by
    rw [← List.reverse_append, ← hp, List.reverse_reverse]
  have hfrags := h.frags
  have hroom := h.room
  rw [hp'] at hfrags
  rw [nrFrags, hp', List.length_append] at hroom
  exact ⟨rfl, hfrags.left, Nat.le_of_add_right_le hroom, h.allocated, h.headroom⟩

/-- The cut of a fragment in `_data`. -/
theorem cutBack_inside {off left : Nat} {bytes : List UInt8} (hoff : off < internalDataSize) :
    p.cutBack left [⟨some off, bytes⟩] = .ok { p with
      headroom := p.headroom + left
      frags := [⟨some off, bytes.take (bytes.length - left)⟩] } := by
  simp [cutBack, usingInternalData, hoff, Fragment.size]

/-- Every other cut leaves `_headroom` alone. -/
theorem cutBack_headroom {left : Nat} {back : List Fragment}
    (hback : ∀ off bytes, back = [⟨some off, bytes⟩] → ¬off < internalDataSize)
    (hok : p.cutBack left back = .ok q) : q.headroom = p.headroom := by
  match back with
  | [] => cases hok
  | [⟨none, bytes⟩] =>
    cases hok
    rfl
  | [⟨some off, bytes⟩] =>
    have hnot := hback off bytes rfl
    simp only [cutBack, usingInternalData, decide_eq_true_eq, if_neg hnot, Except.ok.injEq] at hok
    rw [← hok]
  | f :: g :: rest =>
    cases hok
    rfl

/-- What `trim_back` leaves: the invariant, or a shorter fragment in `_data` and more headroom. -/
theorem trimBack_cases (h : BufferOk p) {howMuch : Nat} (hok : p.trimBack howMuch = .ok q) :
    ∃ left rest, skipFrags howMuch p.frags.reverse = .ok (left, rest) ∧
      (BufferOk q ∧ (∀ off bytes, rest = [⟨some off, bytes⟩] → off < internalDataSize →
          p.headroom + left ≤ off) ∨
        ∃ off bytes, rest = [⟨some off, bytes⟩] ∧ off < internalDataSize ∧
          q.frags = [⟨some off, bytes.take (bytes.length - left)⟩] ∧
          q.headroom = p.headroom + left ∧ Layout q true (content q.frags)) := by
  obtain ⟨-, -, hok⟩ := bind_eq_ok.mp hok
  obtain ⟨⟨left, rest⟩, hskip, hok⟩ := bind_eq_ok.mp hok
  obtain ⟨pre, hp, hleft⟩ := skipFrags_ok hskip
  have hlayout := layout_keepFrags h hp (p.len - howMuch)
  refine ⟨left, rest, hskip, ?_⟩
  dsimp only at hok
  split at hok
  · rename_i hzero
    cases hok
    refine .inl ⟨hlayout.bufferOk, ?_⟩
    rintro off bytes rfl hoff
    rw [hzero]
    exact (hlayout.bufferOk.insideBuffer.base off bytes [] rfl hoff).2
  · rename_i hpos
    obtain ⟨f, tail, rfl, hlt⟩ := hleft.resolve_left hpos
    obtain ⟨r, hr, hcut, -⟩ := cutBack_spec hlayout (List.reverse_cons ..) hlt
      (Nat.pos_of_ne_zero hpos)
    rw [hr] at hok
    cases hok
    by_cases hinside : ∃ off bytes, f :: tail = [⟨some off, bytes⟩] ∧ off < internalDataSize
    · obtain ⟨off, bytes, heq, hoff⟩ := hinside
      rw [heq, cutBack_inside hoff] at hr
      cases hr
      refine .inr ⟨off, bytes, heq, hoff, rfl, rfl, ?_⟩
      have hne : (p.headroom + left != p.headroom) = true := by
        rw [bne_iff_ne]
        omega
      rw [Bool.false_or, hne] at hcut
      rw [hcut.content]
      exact hcut
    · have hkept := cutBack_headroom (fun off bytes heq hoff => hinside ⟨off, bytes, heq, hoff⟩) hr
      have hsame : q.headroom = p.headroom := hkept
      have hne : (q.headroom != p.headroom) = false := by
        rw [hsame]
        exact bne_self_eq_false _
      rw [Bool.false_or, hne] at hcut
      exact .inl ⟨hcut.bufferOk, fun off bytes heq hoff => absurd ⟨off, bytes, heq, hoff⟩ hinside⟩

/-- Trimming the back keeps the buffer in order, when a fragment in `_data` keeps its headroom. -/
theorem bufferOk_trimBack (h : BufferOk p) {howMuch : Nat} (hok : p.trimBack howMuch = .ok q)
    (hcuts : ∀ left off bytes, skipFrags howMuch p.frags.reverse = .ok (left, [⟨some off, bytes⟩]) →
      off < internalDataSize → p.headroom + left ≤ off) : BufferOk q := by
  obtain ⟨left, rest, hskip, ⟨hq, -⟩ | ⟨off, bytes, rfl, hoff, hfrags, hheadroom, hlayout⟩⟩ :=
    trimBack_cases h hok
  · exact hq
  · have hle := hcuts left off bytes hskip hoff
    have hhead := hlayout.frags
    refine ⟨rfl, ?_, hlayout.room, hlayout.allocated, hlayout.headroom⟩
    rw [hfrags] at hhead ⊢
    refine ⟨?_, hhead.2⟩
    rcases hhead.1 with hout | ⟨off', hoff', hbase, hend, hin, -⟩
    · exact .inl hout
    · cases hbase
      refine .inr ⟨off, hoff, rfl, hend, hin, fun _ => ?_⟩
      rw [hheadroom]
      exact hle

/-- When the buffer is in order behind a trim of the back, the fragment kept its headroom. -/
theorem cuts_of_trimBack (h : BufferOk p) {howMuch : Nat} (hok : p.trimBack howMuch = .ok q)
    (hq : InsideBuffer q) {left off : Nat} {bytes : List UInt8}
    (hskip : skipFrags howMuch p.frags.reverse = .ok (left, [⟨some off, bytes⟩]))
    (hoff : off < internalDataSize) : p.headroom + left ≤ off := by
  obtain ⟨left', rest, hskip', ⟨-, hle⟩ | ⟨off', bytes', rfl, -, hfrags, hheadroom, -⟩⟩ :=
    trimBack_cases h hok
  · rw [hskip] at hskip'
    cases hskip'
    exact hle off bytes rfl hoff
  · rw [hskip] at hskip'
    cases hskip'
    rw [← hheadroom]
    exact (hq.base _ _ _ hfrags hoff).2

/-- Sharing fragments keeps the buffer in order. -/
theorem bufferOk_shareFrags {len offset : Nat} {frags : List Fragment} {n : PacketImpl}
    (h : BufferOk n) (hok : shareFrags len offset frags n = .ok q) : BufferOk q := by
  induction frags generalizing offset n with
  | nil =>
    rw [shareFrags] at hok
    split at hok
    · cases hok
    · cases hok
      exact h
  | cons f frags ih =>
    rw [shareFrags] at hok
    split at hok
    · obtain ⟨m, hpush, hok⟩ := bind_eq_ok.mp hok
      obtain ⟨u, hbounds, hret⟩ := bind_eq_ok.mp hpush
      cases hret
      exact ih (Layout.pushFrag h (lt_of_inBounds hbounds) _).bufferOk hok
    · cases hok
      exact h

/-- Sharing a part of a packet keeps both buffers in order. -/
theorem bufferOk_share (h : BufferOk p) {offset len : Nat} {n : PacketImpl}
    (hok : p.share offset len = .ok (q, n)) : BufferOk q ∧ BufferOk n := by
  obtain ⟨m, hempty, hok⟩ := bind_eq_ok.mp hok
  obtain ⟨m', hmore, hok⟩ := bind_eq_ok.mp hok
  obtain ⟨⟨left, rest⟩, -, hok⟩ := bind_eq_ok.mp hok
  obtain ⟨r, hshare, hret⟩ := bind_eq_ok.mp hok
  cases hret
  have hm : BufferOk m := ((allocate_spec 1).result hempty).1.toLayout.bufferOk
  exact ⟨(unuse_layout h false).1.bufferOk,
    bufferOk_shareFrags (bufferOk_allocateIfNeeded hm hmore) hshare⟩

/-- The fragments that `linearize` does not collect are the last ones. -/
theorem collectFrags_ok {desiredSize accumSize : Nat} {frags collected rest : List Fragment}
    (hok : collectFrags desiredSize accumSize frags = .ok (collected, rest)) :
    frags = collected ++ rest := by
  induction frags generalizing accumSize collected with
  | nil =>
    rw [collectFrags] at hok
    split at hok
    · cases hok
    · cases hok
      rfl
  | cons f frags ih =>
    rw [collectFrags] at hok
    split at hok
    · obtain ⟨⟨collected', rest'⟩, hrec, hret⟩ := bind_eq_ok.mp hok
      cases hret
      rw [ih hrec, List.cons_append]
    · cases hok
      rfl

/-- Linearizing keeps the buffer in order. -/
theorem bufferOk_linearizeAt (h : BufferOk p) {atFrag desiredSize : Nat}
    (hok : p.linearizeAt atFrag desiredSize = .ok q) : BufferOk q := by
  obtain ⟨hp, hall⟩ := unuse_layout h false
  obtain ⟨⟨collected, rest⟩, hcollect, hok⟩ := bind_eq_ok.mp hok
  have hsplit := collectFrags_ok hcollect
  dsimp only at hok
  split at hok
  · cases hok
  · obtain ⟨u, hbounds, hret⟩ := bind_eq_ok.mp hok
    cases hret
    have hroom := lt_of_inBounds hbounds
    rw [unuse_allocatedFrags] at hroom
    refine ⟨rfl, .of_outside fun f hf => ?_, ?_, hp.allocated, hp.headroom⟩
    · rcases List.mem_append.mp hf with hf | hf
      · exact hall f (List.mem_of_mem_take hf)
      · rcases List.mem_cons.mp hf with rfl | hf
        · exact outside_elsewhere _
        · have hdrop : f ∈ p.unuseInternalData.frags.drop atFrag := by
            rw [hsplit]
            exact List.mem_append_right _ hf
          exact hall f (List.mem_of_mem_drop hdrop)
    · simp only [nrFrags, List.length_append, List.length_take, List.length_cons,
        unuse_allocatedFrags]
      omega

/-- Reading a header keeps the buffer in order. -/
theorem bufferOk_getHeader (h : BufferOk p) {offset size : Nat} {mem : Option (List UInt8)}
    (hok : p.getHeader offset size = .ok (q, mem)) : BufferOk q := by
  unfold getHeader at hok
  split at hok
  · cases hok
    exact h
  · split at hok
    · cases hok
      exact h
    · dsimp only at hok
      split at hok
      · obtain ⟨r, hr, hok⟩ := bind_eq_ok.mp hok
        split at hok
        · cases hok
        · cases hok
          exact bufferOk_linearizeAt h hr
      · obtain ⟨r, hr, hok⟩ := bind_eq_ok.mp hok
        cases hr
        split at hok
        · cases hok
        · cases hok
          exact h

/-- Reserving fragments keeps the buffer in order. -/
theorem bufferOk_reserve (h : BufferOk p) {nFrags : Nat} (hok : p.reserve nFrags = .ok q) :
    BufferOk q := by
  unfold reserve at hok
  split at hok
  · exact bufferOk_allocateIfNeeded h hok
  · cases hok
    exact h

end

/-! ### Programs -/

/-- The invariant of every packet. -/
def AllOk (s : PacketStore) : Prop := ∀ x, some x ∈ s → BufferOk x.impl

section
variable {s t : PacketStore}

/-- Every packet of the store has its buffer in order. -/
theorem AllOk.slot (h : AllOk s) {i : Nat} {x : PacketSlot} (hslot : s.slot i = .ok x) :
    BufferOk x.impl ∧ s[i]? = some (some x) := by
  unfold PacketStore.slot at hslot
  split at hslot
  · rename_i y hget
    cases hslot
    exact ⟨h x (List.mem_of_getElem? hget), hget⟩
  · cases hslot

/-- Replacing a packet by one in order keeps the store in order. -/
theorem AllOk.set (h : AllOk s) {i : Nat} {x : Option PacketSlot}
    (hx : ∀ y, x = some y → BufferOk y.impl) : AllOk (s.set i x) := by
  intro y hy
  rcases List.mem_or_eq_of_mem_set hy with hmem | heq
  · exact h y hmem
  · exact hx y heq.symm

/-- A new packet in order keeps the store in order. -/
theorem AllOk.concat (h : AllOk s) {x : PacketSlot} (hx : BufferOk x.impl) :
    AllOk (s ++ [some x]) := by
  intro y hy
  rcases List.mem_append.mp hy with hmem | hlast
  · exact h y hmem
  · cases List.mem_singleton.mp hlast
    exact hx

/-- Building a packet in order keeps the store in order. -/
theorem AllOk.build (h : AllOk s) {p : Except PacketError PacketImpl} {out : PacketOutput}
    (hp : ∀ q, p = .ok q → BufferOk q) (hok : s.build p = .ok (t, out)) : AllOk t := by
  obtain ⟨q, hq, hret⟩ := bind_eq_ok.mp hok
  cases hret
  exact h.concat (hp q hq)

/-- An operation that keeps a buffer in order keeps the store in order. -/
theorem AllOk.update (h : AllOk s) {i : Nat} {f : PacketImpl → Except PacketError PacketImpl}
    {out : PacketOutput} (hf : ∀ p q, BufferOk p → f p = .ok q → BufferOk q)
    (hok : s.update i f = .ok (t, out)) : AllOk t := by
  obtain ⟨x, hslot, hok⟩ := bind_eq_ok.mp hok
  obtain ⟨q, hq, hret⟩ := bind_eq_ok.mp hok
  cases hret
  refine h.set fun y hy => ?_
  cases hy
  exact hf _ _ (h.slot hslot).1 hq

/-- An operation that does not cut too much keeps the invariant. -/
theorem AllOk.step (h : AllOk s) {op : PacketOp} {out : PacketOutput} (hcuts : CutsWithin s op)
    (hok : s.step op = .ok (t, out)) : AllOk t := by
  cases op with
  | empty => exact h.build (fun q hq => ((allocate_spec 1).result hq).1.toLayout.bufferOk) hok
  | withFrags nrFrags =>
    exact h.build (fun q hq => ((allocate_spec nrFrags).result hq).1.toLayout.bufferOk) hok
  | ofCopy bytes =>
    refine h.build (fun q hq => ?_) hok
    cases hq
    exact (ofCopy_layout bytes).bufferOk
  | ofFrags frags =>
    exact h.build (fun q hq => ((ofFrags_layout frags).result hq).1.bufferOk) hok
  | appendFrag i bytes =>
    exact h.update (fun p q hp hq => ((appendFrag_layout bytes hp).result hq).1.bufferOk) hok
  | prependCopy i bytes =>
    exact h.update (fun p q hp hq => ((prependCopy_layout bytes hp).result hq).1.bufferOk) hok
  | prependHeader i bytes =>
    refine h.update (f := (·.prependUninitializedHeader bytes)) (fun p q hp hq => ?_) hok
    exact ((prependUninitializedHeader_layout bytes hp).result hq).1.bufferOk
  | append i j =>
    obtain ⟨x, hx, hok⟩ := bind_eq_ok.mp hok
    obtain ⟨y, hy, hok⟩ := bind_eq_ok.mp hok
    obtain ⟨p, hp, hret⟩ := bind_eq_ok.mp hok
    cases hret
    have hjoined := bufferOk_append (h.slot hx).1 (h.slot hy).1 hp
    refine (h.set fun z hz => ?_).set fun z hz => nomatch hz
    cases hz
    exact hjoined
  | trimFront i howMuch => exact h.update (fun p q hp hq => bufferOk_trimFront hp hq) hok
  | trimBack i howMuch =>
    obtain ⟨x, hx, hok⟩ := bind_eq_ok.mp hok
    obtain ⟨p, hp, hret⟩ := bind_eq_ok.mp hok
    cases hret
    obtain ⟨hbuffer, hget⟩ := h.slot hx
    refine h.set fun z hz => ?_
    cases hz
    -- Only here does it matter how much is cut: `trim_back` moves the headroom.
    exact bufferOk_trimBack hbuffer hp (hcuts x hget)
  | share i offset len =>
    obtain ⟨x, hx, hok⟩ := bind_eq_ok.mp hok
    obtain ⟨⟨p, n⟩, hp, hret⟩ := bind_eq_ok.mp hok
    cases hret
    obtain ⟨hold, hnew⟩ := bufferOk_share (h.slot hx).1 hp
    refine AllOk.concat (h.set fun z hz => ?_) hnew
    cases hz
    exact hold
  | linearize i => exact h.update (fun p q hp hq => bufferOk_linearizeAt hp hq) hok
  | getHeader i offset size =>
    obtain ⟨x, hx, hok⟩ := bind_eq_ok.mp hok
    obtain ⟨⟨p, mem⟩, hp, hret⟩ := bind_eq_ok.mp hok
    cases hret
    refine h.set fun z hz => ?_
    cases hz
    exact bufferOk_getHeader (h.slot hx).1 hp
  | reserve i nFrags => exact h.update (fun p q hp hq => bufferOk_reserve hp hq) hok
  | release i =>
    obtain ⟨x, -, hret⟩ := bind_eq_ok.mp hok
    cases hret
    exact h

/-- The operation `next` is a step without a fault. -/
theorem next_eq_some {op : PacketOp} (h : s.next op = some t) : ∃ out, s.step op = .ok (t, out) := by
  obtain ⟨⟨t', out⟩, hstep, rfl⟩ := Option.map_eq_some_iff.mp h
  cases hres : s.step op with
  | error e =>
    rw [hres] at hstep
    cases hstep
  | ok r =>
    rw [hres] at hstep
    cases hstep
    exact ⟨out, rfl⟩

/-- A `trim_back` that leaves a packet inside its buffer did not cut too much. -/
theorem cutsWithin_of_inside (h : AllOk s) {op : PacketOp} (hnext : s.next op = some t)
    (ht : AllInside t) : CutsWithin s op := by
  obtain ⟨out, hok⟩ := next_eq_some hnext
  cases op with
  | trimBack i howMuch =>
    intro x hget left off bytes hskip hoff
    obtain ⟨y, hy, hok⟩ := bind_eq_ok.mp hok
    obtain ⟨p, hp, hret⟩ := bind_eq_ok.mp hok
    cases hret
    obtain ⟨hbuffer, hget'⟩ := h.slot hy
    obtain rfl : y = x := by simpa [hget] using hget'.symm
    have hmem : some ⟨p, y.trimmed || p.headroom != y.impl.headroom⟩ ∈
        s.set i (some ⟨p, y.trimmed || p.headroom != y.impl.headroom⟩) :=
      List.mem_set (List.getElem?_eq_some_iff.mp hget).1 _
    exact cuts_of_trimBack hbuffer hp (ht _ hmem) hskip hoff
  | _ => trivial

end

/-- In every state of a program, the fragments in internal buffers and the headers before them are inside,
exactly when no `trim_back` of the program cuts more off a fragment in the buffer than there is between
`_headroom` and its base. -/
theorem allInside_iff (ops : List PacketOp) :
    Always PacketStore.next AllInside [] ops ↔ Guarded PacketStore.next CutsWithin [] ops := by
  refine always_iff_guarded_of_inv AllOk (fun s hs x hx => (hs x hx).insideBuffer) ?_ ?_
    (fun x hx => absurd hx List.not_mem_nil) ops
  · intro s op t hs hcuts hnext
    obtain ⟨out, hok⟩ := next_eq_some hnext
    exact hs.step hcuts hok
  · intro s op t hs hnext ht
    exact cutsWithin_of_inside hs hnext ht

/-- A packet of ten bytes loses its last one. `_headroom` is then 103 and the base 102, and a header of
103 bytes starts in front of the buffer. -/
theorem not_allInside_of_trimBack :
    ¬∀ ops : List PacketOp, Always PacketStore.next AllInside [] ops := by
  intro h
  have hrun : (run PacketStore.next [] [.ofCopy (List.replicate 10 0), .trimBack 0 1]) =
      some [some ⟨⟨9, 103, 4, [⟨some 102, List.replicate 9 0⟩]⟩, true⟩] := by
    decide
  have hinside := (h _).last hrun _ List.mem_cons_self
  have hbase := hinside.base 102 _ [] rfl (by decide)
  exact absurd hbase.2 (by decide)

end Netstar.Proofs.Net
