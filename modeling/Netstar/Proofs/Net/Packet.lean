import Netstar.Lib.Result
import Netstar.Spec.Net.Packet

/-!
# `Netstar.Proofs.Net.Packet`: a packet is a list of bytes

`Rep p trimmed c` says that the packet `p` holds the bytes `c`. Its other fields are the invariant
of the representation: the fragment array has room, only the first fragment uses `_data`, and
`_headroom` is the free space before it. `trimmed` says that `trim_back` has cut internal data. Then
`_headroom` is too large, and only prepending would notice.

Each operation has one lemma. It stops at an assertion that does not hold, or the result represents the
bytes that the operation gives on a list. The assertions are that what is trimmed is there, and that a
new array of fragments has fewer than `2^16` entries (`ArrayGrows`).
-/

set_option autoImplicit false

namespace Netstar.Proofs.Net

open Netstar.Lib (Sat ok_bind)
open Netstar.Spec.Net
open Netstar.Spec.Net.PacketImpl

/-- The result of the operation satisfies `P`. If its assertions do not hold, it may also stop at one. -/
abbrev Asserts {α : Type} (holds : Prop) (P : α → Prop) (x : Except PacketError α) : Prop :=
  Sat (fun e => e = .assertion ∧ ¬ holds) P x

/-- The condition of `Asserts` may be replaced by a stronger one. -/
theorem Asserts.imp {α : Type} {holds holds' : Prop} {P : α → Prop} {x : Except PacketError α}
    (h : Asserts holds P x) (hholds : holds' → holds) : Asserts holds' P x :=
  Sat.mono_error h fun _ he => ⟨he.1, fun h' => he.2 (hholds h')⟩

/-- The bytes of the fragments. -/
def content (frags : List Fragment) : List UInt8 := frags.flatMap (·.bytes)

/-- No fragments hold no bytes. -/
@[simp] theorem content_nil : content [] = [] := rfl

/-- The bytes of the first fragment come first. -/
@[simp] theorem content_cons (f : Fragment) (frags : List Fragment) :
    content (f :: frags) = f.bytes ++ content frags := rfl

/-- The bytes of two lists of fragments follow each other. -/
@[simp] theorem content_append (frags frags' : List Fragment) :
    content (frags ++ frags') = content frags ++ content frags' :=
  List.flatMap_append

/-- Copying fragments elsewhere keeps their bytes. -/
@[simp] theorem content_elsewhere (frags : List Fragment) :
    content (frags.map fun f => Fragment.elsewhere f.bytes) = content frags := by
  simp [content, List.flatMap_map, Fragment.elsewhere]

/-- A fragment that does not use `_data`. An empty fragment at its end does not count. -/
def Outside (f : Fragment) : Prop := f.base = none ∨ f.base = some internalDataSize ∧ f.bytes = []

/-- The first fragment. -/
def HeadOk (headroom : Nat) (trimmed : Bool) (f : Fragment) : Prop :=
  Outside f ∨ ∃ off < internalDataSize, f.base = some off ∧ off + f.size ≤ internalDataSize ∧
    headroom + f.size ≤ internalDataSize ∧ (trimmed = false → headroom ≤ off)

/-- The fragments of a packet. -/
def FragsOk (headroom : Nat) (trimmed : Bool) : List Fragment → Prop
  | [] => True
  | f :: frags => HeadOk headroom trimmed f ∧ ∀ g ∈ frags, Outside g

/-- The fragments of the packet hold the bytes `c`. -/
structure Layout (p : PacketImpl) (trimmed : Bool) (c : List UInt8) : Prop where
  content : content p.frags = c
  frags : FragsOk p.headroom trimmed p.frags
  room : p.nrFrags ≤ p.allocatedFrags
  allocated : defaultNrFrags ≤ p.allocatedFrags ∧ p.allocatedFrags < 2 ^ 16
  headroom : p.headroom ≤ internalDataSize

/-- The packet holds the bytes `c`, and `_len` says so. -/
structure Rep (p : PacketImpl) (trimmed : Bool) (c : List UInt8) : Prop
    extends Layout p trimmed c where
  len : p.len = c.length
  short : c.length < 2 ^ 32

/-- The array has room for more fragments, or the new array is small enough. -/
def ArrayGrows (p : PacketImpl) (extra : Nat) : Prop :=
  p.nrFrags + extra ≤ p.allocatedFrags ∨ max (p.nrFrags + extra) (2 * p.nrFrags) < 2 ^ 16

/-- No fragment uses `_data`. -/
def AllOutside (p : PacketImpl) : Prop := ∀ f ∈ p.frags, Outside f

variable {p : PacketImpl} {trimmed : Bool} {c : List UInt8}

/-- Fragments that do not use `_data` are in order. -/
theorem FragsOk.of_outside {headroom : Nat} {frags : List Fragment}
    (h : ∀ f ∈ frags, Outside f) : FragsOk headroom trimmed frags := by
  cases frags with
  | nil => exact trivial
  | cons f frags =>
    exact ⟨.inl (h f (by simp)), fun g hg => h g (List.mem_cons_of_mem f hg)⟩

/-- A fragment elsewhere does not use `_data`. -/
theorem outside_elsewhere (bytes : List UInt8) : Outside (.elsewhere bytes) := .inl rfl

/-- Fragments copied elsewhere do not use `_data`. -/
theorem map_elsewhere_outside (frags : List Fragment) :
    ∀ f ∈ frags.map fun f => Fragment.elsewhere f.bytes, Outside f := by
  intro f hf
  obtain ⟨g, _, rfl⟩ := List.mem_map.mp hf
  exact outside_elsewhere _

/-- Fragments that do not use `_data` may be added at the end. -/
theorem FragsOk.append {headroom : Nat} {frags frags' : List Fragment}
    (h : FragsOk headroom trimmed frags) (h' : ∀ f ∈ frags', Outside f) :
    FragsOk headroom trimmed (frags ++ frags') := by
  cases frags with
  | nil => exact .of_outside h'
  | cons f frags =>
    refine ⟨h.1, ?_⟩
    intro g hg
    rcases List.mem_append.mp hg with hg | hg
    · exact h.2 g hg
    · exact h' g hg

/-- A length under 2^32 is stored as it is. -/
theorem toUnsigned_eq {n : Nat} (h : n < 2 ^ 32) : toUnsigned n = n := Nat.mod_eq_of_lt h

/-- A check passes when its condition holds, and asserts otherwise. -/
theorem asserts_check {b : Bool} : Asserts (b = true) (fun _ => b = true) (check b) := by
  cases b <;> simp [check, Sat]

/-- An index below the bound passes. -/
theorem inBounds_eq_ok {i n : Nat} (h : i < n) : inBounds i n = .ok () := if_pos h

/-- A fragment goes to the end of an array with room. -/
theorem pushFrag_eq_ok (f : Fragment) (h : p.nrFrags < p.allocatedFrags) :
    p.pushFrag f = .ok { p with frags := p.frags ++ [f] } := by
  unfold pushFrag
  rw [inBounds_eq_ok h]
  rfl

/-- A fragment goes to the front of an array with room. -/
theorem unshiftFrag_eq_ok (f : Fragment) (h : p.nrFrags < p.allocatedFrags) :
    p.unshiftFrag f = .ok { p with frags := f :: p.frags } := by
  unfold unshiftFrag
  rw [inBounds_eq_ok h]
  rfl

/-! ### Allocation -/

/-- A new packet is empty and has room for the fragments asked for. -/
theorem allocate_spec (nr : Nat) :
    Asserts (nr < 2 ^ 16) (fun p => Rep p false [] ∧ p.frags = [] ∧ nr ≤ p.allocatedFrags)
      (allocate nr) := by
  have hcheck := asserts_check (b := decide (max nr defaultNrFrags < 2 ^ 16))
  refine (hcheck.imp fun hnr => ?_).bind fun _ hsmall => ?_
  · have hdefault : defaultNrFrags < 2 ^ 16 := by decide
    exact decide_eq_true (Nat.max_lt.mpr ⟨hnr, hdefault⟩)
  · refine ⟨⟨⟨rfl, trivial, Nat.zero_le _, ⟨Nat.le_max_right _ _, ?_⟩, Nat.le_refl _⟩, rfl, by decide⟩,
      rfl, ?_⟩
    · exact of_decide_eq_true hsmall
    · exact Nat.le_max_left _ _

/-- A packet whose first fragment is outside does not use `_data`. -/
theorem usingInternalData_eq_false {f : Fragment} {frags : List Fragment} (hp : p.frags = f :: frags)
    (h : Outside f) : p.usingInternalData = false := by
  obtain ⟨base, bytes⟩ := f
  rcases h with hbase | ⟨hbase, _⟩ <;> simp only at hbase <;> subst hbase <;>
    simp [usingInternalData, hp]

/-- A packet without a fragment in `_data` does not use it. -/
theorem AllOutside.usingInternalData (h : AllOutside p) : p.usingInternalData = false := by
  cases hp : p.frags with
  | nil => simp [PacketImpl.usingInternalData, hp]
  | cons f frags => exact usingInternalData_eq_false hp (h f (by simp [hp]))

/-- The first fragment lies in `_data` at `off`. -/
theorem usingInternalData_eq_true {off : Nat} {bytes : List UInt8} {frags : List Fragment}
    (hp : p.frags = ⟨some off, bytes⟩ :: frags) (h : off < internalDataSize) :
    p.usingInternalData = true := by
  simp [usingInternalData, hp, h]

/-- The two ways in which the fragments can lie. -/
theorem Layout.cases (h : Layout p trimmed c) :
    p.usingInternalData = false ∧ AllOutside p ∨
      p.usingInternalData = true ∧ ∃ off bytes frags, p.frags = ⟨some off, bytes⟩ :: frags ∧
        off < internalDataSize ∧ off + bytes.length ≤ internalDataSize ∧
        p.headroom + bytes.length ≤ internalDataSize ∧ (trimmed = false → p.headroom ≤ off) ∧
        ∀ f ∈ frags, Outside f := by
  have hfrags := h.frags
  cases hp : p.frags with
  | nil =>
    have hall : AllOutside p := by simp [AllOutside, hp]
    exact .inl ⟨hall.usingInternalData, hall⟩
  | cons f frags =>
    rw [hp] at hfrags
    rcases hfrags.1 with hout | ⟨off, hoff, hbase, hin, hroom, htrim⟩
    · have hall : AllOutside p := by
        unfold AllOutside
        rw [hp]
        rintro g (_ | ⟨_, hg⟩)
        · exact hout
        · exact hfrags.2 g hg
      exact .inl ⟨hall.usingInternalData, hall⟩
    · obtain ⟨base, bytes⟩ := f
      simp only at hbase
      subst hbase
      exact .inr ⟨usingInternalData_eq_true hp hoff, off, bytes, frags, rfl, hoff, hin, hroom, htrim,
        hfrags.2⟩

/-- `unuse_internal_data` keeps the bytes, and then no fragment uses `_data`. -/
theorem unuse_layout (h : Layout p trimmed c) (trimmed' : Bool) :
    Layout p.unuseInternalData trimmed' c ∧ AllOutside p.unuseInternalData := by
  rcases h.cases with ⟨hnot, hall⟩ | ⟨husing, off, bytes, frags, hp, _, _, _, _, htail⟩
  · have heq : p.unuseInternalData = p := by
      unfold unuseInternalData
      split <;> simp [hnot]
    rw [heq]
    exact ⟨⟨h.content, .of_outside hall, h.room, h.allocated, h.headroom⟩, hall⟩
  · have heq : p.unuseInternalData =
        { p with headroom := internalDataSize, frags := .elsewhere bytes :: frags } := by
      simp [unuseInternalData, hp, husing]
    have hall : ∀ f ∈ Fragment.elsewhere bytes :: frags, Outside f := by
      rintro f (_ | ⟨_, hf⟩)
      · exact outside_elsewhere _
      · exact htail f hf
    have hcontent := h.content
    have hroom := h.room
    rw [nrFrags, hp] at hroom
    rw [hp] at hcontent
    rw [heq]
    exact ⟨⟨hcontent, .of_outside hall, hroom, h.allocated, Nat.le_refl _⟩, hall⟩

/-- Moving out of `_data` keeps the length. -/
@[simp] theorem unuse_len : p.unuseInternalData.len = p.len := by
  unfold unuseInternalData
  split <;> [split; skip] <;> rfl

/-- Moving out of `_data` keeps the array. -/
@[simp] theorem unuse_allocatedFrags :
    p.unuseInternalData.allocatedFrags = p.allocatedFrags := by
  unfold unuseInternalData
  split <;> [split; skip] <;> rfl

/-- Moving out of `_data` keeps the number of fragments. -/
@[simp] theorem unuse_nrFrags : p.unuseInternalData.nrFrags = p.nrFrags := by
  unfold unuseInternalData
  split <;> [split; skip] <;> simp_all [nrFrags]

/-- Moving out of `_data` keeps the bytes, and no fragment uses `_data` any more. -/
theorem unuse_spec (h : Rep p trimmed c) (trimmed' : Bool) :
    Rep p.unuseInternalData trimmed' c ∧ AllOutside p.unuseInternalData := by
  obtain ⟨hlayout, hall⟩ := unuse_layout h.toLayout trimmed'
  exact ⟨⟨hlayout, by simpa using h.len, h.short⟩, hall⟩

/-- The copied fragments hold the same bytes. -/
theorem copyInternalFragment_spec (h : Layout p trimmed c) :
    ∃ frags, p.copyInternalFragment = .ok frags ∧ content frags = c ∧
      frags.length = p.nrFrags ∧ FragsOk p.headroom trimmed frags ∧
      (AllOutside p → ∀ f ∈ frags, Outside f) := by
  rcases h.cases with ⟨hnot, _⟩ | ⟨husing, off, bytes, frags, hp, hoff, _, hroom, _, _⟩
  · refine ⟨p.frags.map fun f => .elsewhere f.bytes, ?_, ?_, List.length_map _,
      .of_outside (map_elsewhere_outside _), fun _ => map_elsewhere_outside _⟩
    · unfold copyInternalFragment
      dsimp only
      split <;> simp_all
    · rw [content_elsewhere, h.content]
  · refine ⟨⟨some p.headroom, bytes⟩ :: frags.map fun f => .elsewhere f.bytes, ?_, ?_, ?_, ?_, ?_⟩
    · have hbounds : p.headroom + (Fragment.elsewhere bytes).size < internalDataSize + 1 :=
        Nat.lt_succ_of_le hroom
      simp only [copyInternalFragment, hp, husing, List.map_cons, if_true]
      rw [inBounds_eq_ok hbounds]
      rfl
    · have hcontent := h.content
      rw [hp] at hcontent
      simpa using hcontent
    · simp [nrFrags, hp]
    · refine ⟨?_, map_elsewhere_outside _⟩
      -- a first fragment without bytes may end up at the end of `_data`
      rcases Nat.lt_or_ge p.headroom internalDataSize with hlt | hge
      · exact .inr ⟨_, hlt, rfl, hroom, hroom, fun _ => Nat.le_refl _⟩
      · have hzero : bytes.length = 0 := by omega
        have heq : p.headroom = internalDataSize := by omega
        exact .inl (.inr ⟨by rw [heq], List.eq_nil_of_length_eq_zero hzero⟩)
    · intro hall
      have husing' := hall.usingInternalData
      simp [husing] at husing'

/-- `impl::copy` keeps the bytes. -/
theorem copy_spec {nr : Nat} (h : Layout p trimmed c) (hnr : p.nrFrags ≤ nr) :
    Asserts (nr < 2 ^ 16) (fun q => Layout q trimmed c ∧ nr ≤ q.allocatedFrags ∧
      q.nrFrags = p.nrFrags ∧ q.len = p.len ∧ q.headroom = p.headroom ∧
      (AllOutside p → AllOutside q)) (p.copy nr) := by
  apply (allocate_spec nr).bind
  rintro n ⟨hn, _, halloc⟩
  have hbounds : p.nrFrags < n.allocatedFrags + 1 := by omega
  rw [inBounds_eq_ok hbounds, ok_bind]
  obtain ⟨frags, hcopy, hcontent, hlength, hfrags, hout⟩ := copyInternalFragment_spec h
  rw [hcopy, ok_bind]
  have hroom : frags.length ≤ n.allocatedFrags := by omega
  exact ⟨⟨hcontent, hfrags, hroom, hn.allocated, h.headroom⟩, halloc, hlength, rfl, rfl, hout⟩

/-- `allocate_if_needed` makes room for more fragments. -/
theorem allocateIfNeeded_spec (extra : Nat) (h : Layout p trimmed c) :
    Asserts (ArrayGrows p extra) (fun q => Layout q trimmed c ∧ q.nrFrags + extra ≤ q.allocatedFrags ∧
      q.nrFrags = p.nrFrags ∧ q.len = p.len ∧ q.headroom = p.headroom ∧
      (AllOutside p → AllOutside q)) (p.allocateIfNeeded extra) := by
  unfold allocateIfNeeded
  split
  · rename_i hroom
    exact ⟨h, hroom, rfl, rfl, rfl, id⟩
  · rename_i hroom
    have hcopy := (copy_spec h (by omega)).imp fun hgrows : ArrayGrows p extra => hgrows.resolve_left hroom
    apply hcopy.mono
    rintro q ⟨hq, halloc, hnr, hlen, hheadroom, hout⟩
    exact ⟨hq, by omega, hnr, hlen, hheadroom, hout⟩

/-! ### Construction, append and prepend -/

/-- The default array has room for a fragment. -/
theorem one_le_default : 1 ≤ defaultNrFrags := by decide

/-- The default array is large enough and fits its counter. -/
theorem default_allocated : defaultNrFrags ≤ defaultNrFrags ∧ defaultNrFrags < 2 ^ 16 := by decide

/-- A packet made of a copy holds the bytes. -/
theorem ofCopy_layout (bytes : List UInt8) : Layout (ofCopy bytes) false bytes := by
  unfold ofCopy
  split
  · rename_i hle
    refine ⟨by simp [content], ⟨?_, by simp⟩, one_le_default, default_allocated,
      Nat.sub_le _ _⟩
    have hsize : internalDataSize - bytes.length + bytes.length ≤ internalDataSize := by omega
    rcases Nat.eq_zero_or_pos bytes.length with hzero | hpos
    · exact .inl (.inr ⟨by simp [hzero], List.eq_nil_of_length_eq_zero hzero⟩)
    · have hlt : internalDataSize - bytes.length < internalDataSize := by
        simp only [internalDataSize] at hle ⊢
        omega
      exact .inr ⟨_, hlt, rfl, hsize, hsize, fun _ => Nat.le_refl _⟩
  · exact ⟨by simp [content, Fragment.elsewhere], ⟨.inl (outside_elsewhere _), by simp⟩,
      one_le_default, default_allocated, Nat.le_refl _⟩

/-- A packet made of a copy holds the bytes, and its length says so. -/
theorem ofCopy_spec {bytes : List UInt8} (hshort : bytes.length < 2 ^ 32) :
    Rep (ofCopy bytes) false bytes := by
  have hlen : (ofCopy bytes).len = toUnsigned bytes.length := by
    unfold ofCopy
    split <;> rfl
  exact ⟨ofCopy_layout bytes, hlen.trans (toUnsigned_eq hshort), hshort⟩

/-- The lengths of the fragments add up as long as the sum fits. -/
theorem foldl_toUnsigned (frags : List (List UInt8)) (n : Nat)
    (h : n + frags.flatten.length < 2 ^ 32) :
    frags.foldl (fun len bytes => toUnsigned (len + bytes.length)) n =
      n + frags.flatten.length := by
  induction frags generalizing n with
  | nil => rfl
  | cons bytes frags ih =>
    simp only [List.flatten_cons, List.length_append] at h ⊢
    rw [List.foldl_cons, toUnsigned_eq (by omega), ih _ (by omega)]
    omega

/-- A packet made of fragments holds their bytes, and its length is the wrapped sum of theirs. -/
theorem ofFrags_layout (frags : List (List UInt8)) :
    Asserts (frags.length < 2 ^ 16) (fun p => Layout p false frags.flatten ∧
      p.len = frags.foldl (fun len bytes => toUnsigned (len + bytes.length)) 0) (ofFrags frags) := by
  apply (allocate_spec frags.length).bind
  rintro p ⟨hp, _, halloc⟩
  have hcontent : content (frags.map Fragment.elsewhere) = frags.flatten := by
    simp [content, List.flatMap_map, Fragment.elsewhere, List.flatMap_id']
  have hout : ∀ f ∈ frags.map Fragment.elsewhere, Outside f := by
    intro f hf
    obtain ⟨bytes, _, rfl⟩ := List.mem_map.mp hf
    exact outside_elsewhere bytes
  exact ⟨⟨hcontent, .of_outside hout, by simpa [nrFrags] using halloc, hp.allocated, hp.headroom⟩,
    rfl⟩

/-- A packet made of short fragments holds their bytes, and its length says so. -/
theorem ofFrags_spec {frags : List (List UInt8)} (hshort : frags.flatten.length < 2 ^ 32) :
    Asserts (frags.length < 2 ^ 16) (fun p => Rep p false frags.flatten) (ofFrags frags) := by
  refine (ofFrags_layout frags).mono ?_
  rintro p ⟨hp, hlen⟩
  exact ⟨hp, by rw [hlen, foldl_toUnsigned frags 0 (by omega), Nat.zero_add], hshort⟩

/-- A fragment at the end. -/
theorem Layout.pushFrag {bytes : List UInt8} (h : Layout p trimmed c)
    (hroom : p.nrFrags < p.allocatedFrags) (n : Nat) :
    Layout { p with len := n, frags := p.frags ++ [.elsewhere bytes] } trimmed (c ++ bytes) := by
  have hout : ∀ f ∈ [Fragment.elsewhere bytes], Outside f := by
    simp [outside_elsewhere]
  refine ⟨by simp [h.content, Fragment.elsewhere], h.frags.append hout, ?_, h.allocated, h.headroom⟩
  show (p.frags ++ [Fragment.elsewhere bytes]).length ≤ p.allocatedFrags
  rw [List.length_append]
  exact hroom

/-- Appending a fragment puts its bytes at the end. -/
theorem appendFrag_layout (bytes : List UInt8) (h : Layout p trimmed c) :
    Asserts (ArrayGrows p 1)
      (fun q => Layout q trimmed (c ++ bytes) ∧ q.len = toUnsigned (p.len + bytes.length))
      (p.appendFrag bytes) := by
  apply (allocateIfNeeded_spec 1 h).bind
  rintro q ⟨hq, hroom, _, hlen, _, _⟩
  have hpush := pushFrag_eq_ok (p := { q with len := toUnsigned (q.len + bytes.length) })
    (.elsewhere bytes) hroom
  rw [hpush, ← hlen]
  exact ⟨hq.pushFrag hroom _, rfl⟩

/-- The length that the bytes have, when `_len` can count it. -/
theorem Layout.rep {n : Nat} (h : Layout p trimmed c) (hlen : p.len = toUnsigned n)
    (hn : n = c.length) (hshort : c.length < 2 ^ 32) : Rep p trimmed c :=
  ⟨h, by rw [hlen, hn, toUnsigned_eq hshort], hshort⟩

/-- Appending a fragment to a packet that stays short puts its bytes at the end. -/
theorem appendFrag_spec {bytes : List UInt8} (h : Rep p trimmed c)
    (hshort : (c ++ bytes).length < 2 ^ 32) :
    Asserts (ArrayGrows p 1) (fun q => Rep q trimmed (c ++ bytes)) (p.appendFrag bytes) := by
  refine (appendFrag_layout bytes h.toLayout).mono ?_
  rintro q ⟨hq, hlen⟩
  exact hq.rep hlen (by rw [h.len, List.length_append]) hshort

/-- The first fragment grows downwards into the free space before it. -/
theorem growFront_spec {bytes old : List UInt8} {off : Nat} {frags : List Fragment}
    (hp : p.frags = ⟨some off, old⟩ :: frags) (hcontent : content p.frags = c)
    (hout : ∀ f ∈ frags, Outside f) (hend : off + old.length ≤ internalDataSize)
    (hoff : p.headroom ≤ off) (hroom : p.nrFrags ≤ p.allocatedFrags)
    (halloc : defaultNrFrags ≤ p.allocatedFrags ∧ p.allocatedFrags < 2 ^ 16)
    (hbytes : bytes.length ≤ p.headroom) :
    ∃ q, p.growFront bytes = .ok q ∧ Layout q false (bytes ++ c) ∧ q.len = p.len := by
  have hgrow : p.growFront bytes = .ok { p with
      headroom := p.headroom - bytes.length
      frags := ⟨some (off - bytes.length), bytes ++ old⟩ :: frags } := by
    unfold growFront
    rw [hp]
    exact if_pos (by omega)
  have hsize : (bytes ++ old).length = bytes.length + old.length := List.length_append
  refine ⟨_, hgrow, ⟨?_, ⟨?_, hout⟩, ?_, halloc, ?_⟩, rfl⟩
  · rw [← hcontent, hp]
    simp
  · rcases Nat.lt_or_ge (off - bytes.length) internalDataSize with hlt | hge
    · refine .inr ⟨_, hlt, rfl, ?_, ?_, fun _ => ?_⟩
      · simp only [Fragment.size, hsize]
        omega
      · simp only [Fragment.size, hsize]
        omega
      · simp only
        omega
    · have hzero : (bytes ++ old).length = 0 := by omega
      exact .inl (.inr ⟨by simp; omega, List.eq_nil_of_length_eq_zero hzero⟩)
  · rw [nrFrags, hp] at hroom
    exact hroom
  · simp only
    omega

/-- The bytes lie before those of the packet. -/
def Prepended (p : PacketImpl) (c bytes : List UInt8) (q : PacketImpl) : Prop :=
  Layout q false (bytes ++ c) ∧ q.len = toUnsigned (p.len + bytes.length)

/-- The headroom takes the bytes, when they fit. -/
theorem fillHeadroom_layout {bytes : List UInt8} (h : Layout p false c)
    (hbytes : bytes.length ≤ p.headroom) :
    Asserts (p.usingInternalData = true ∨ ArrayGrows p 1) (Prepended p c bytes) (p.fillHeadroom bytes) := by
  unfold fillHeadroom
  have h' : Layout { p with len := toUnsigned (p.len + bytes.length) } false c :=
    ⟨h.content, h.frags, h.room, h.allocated, h.headroom⟩
  rcases h'.cases with ⟨hnot, hall⟩ | ⟨husing, off, old, frags, hp, _, hend, _, hoff, hout⟩
  · simp only [hnot, Bool.false_eq_true, if_false]
    have hholds : p.usingInternalData = true ∨ ArrayGrows p 1 → ArrayGrows p 1 := by
      rintro (husing | hgrows)
      · exact absurd (hnot.symm.trans husing) Bool.false_ne_true
      · exact hgrows
    apply ((allocateIfNeeded_spec 1 h').imp hholds).bind
    rintro q ⟨hq, hroom, hnr, hqlen, hheadroom, hqall⟩
    rw [unshiftFrag_eq_ok _ hroom, ok_bind]
    have hhead : q.headroom ≤ internalDataSize := hq.headroom
    have hb : bytes.length ≤ q.headroom := by rw [hheadroom]; exact hbytes
    have hgrow : ∃ r, growFront { q with frags := ⟨some internalDataSize, []⟩ :: q.frags } bytes =
        .ok r ∧ Layout r false (bytes ++ c) ∧ r.len = q.len :=
      growFront_spec rfl (by simpa using hq.content) (hqall hall) (Nat.le_refl _) hhead
        (by simpa [nrFrags] using hroom) hq.allocated hb
    obtain ⟨r, hr, hlayout, hrlen⟩ := hgrow
    rw [hr]
    exact ⟨hlayout, hrlen.trans hqlen⟩
  · simp only [husing, if_true]
    obtain ⟨r, hr, hlayout, hrlen⟩ :=
      growFront_spec hp h.content hout hend (hoff rfl) h.room h.allocated hbytes
    rw [hr]
    exact ⟨hlayout, hrlen⟩

/-- A new fragment before fragments that do not use `_data`. -/
theorem prependFrag_layout (bytes : List UInt8) (h : Layout p trimmed c) (hall : AllOutside p) :
    Asserts (ArrayGrows p 1) (Prepended p c bytes) (p.prependFrag bytes) := by
  apply (allocateIfNeeded_spec 1 h).bind
  rintro q ⟨hq, hroom, _, hlen, _, hqall⟩
  have hunshift := unshiftFrag_eq_ok (p := { q with len := toUnsigned (q.len + bytes.length) })
    (.elsewhere bytes) hroom
  rw [hunshift]
  refine ⟨⟨by simp [hq.content, Fragment.elsewhere], ⟨.inl (outside_elsewhere _), hqall hall⟩, ?_,
    hq.allocated, hq.headroom⟩, by rw [hlen]⟩
  simpa [nrFrags] using hroom

/-- The bytes go into the free space of a fragment that is there, or the array takes one more. -/
def PrependGrows (p : PacketImpl) (size : Nat) : Prop :=
  (size ≤ p.headroom ∧ p.usingInternalData = true) ∨ ArrayGrows p 1

/-- Whether the array can grow does not depend on `_data`. -/
theorem arrayGrows_unuse {extra : Nat} : ArrayGrows p.unuseInternalData extra ↔ ArrayGrows p extra := by
  rw [ArrayGrows, unuse_nrFrags, unuse_allocatedFrags, ArrayGrows]

/-- A copy is put before the bytes of the packet. -/
theorem prependCopy_layout (bytes : List UInt8) (h : Layout p false c) :
    Asserts (PrependGrows p bytes.length) (Prepended p c bytes) (prependCopy bytes p) := by
  unfold prependCopy
  split
  · rename_i hbytes
    exact (fillHeadroom_layout h hbytes).imp fun hgrows => hgrows.imp_left And.right
  · rename_i hlong
    obtain ⟨hunuse, hall⟩ := unuse_layout h false
    have hprepend := prependFrag_layout bytes hunuse hall
    unfold Prepended at hprepend
    rw [unuse_len] at hprepend
    exact Asserts.imp hprepend fun hgrows =>
      arrayGrows_unuse.mpr (hgrows.resolve_left fun hfits => hlong hfits.1)

/-- A header is put before the bytes of the packet. -/
theorem prependUninitializedHeader_layout (bytes : List UInt8) (h : Layout p false c) :
    Asserts (PrependGrows p bytes.length) (Prepended p c bytes)
      (p.prependUninitializedHeader bytes) := by
  obtain ⟨hunuse, hall⟩ := unuse_layout h false
  have hfill := fun hbytes : bytes.length ≤ _ => fillHeadroom_layout hunuse hbytes
  have hprepend := prependFrag_layout bytes hunuse hall
  unfold Prepended at hfill hprepend
  rw [unuse_len] at hfill hprepend
  unfold prependUninitializedHeader
  split
  · rename_i hbytes
    exact (fillHeadroom_layout h hbytes).imp fun hgrows => hgrows.imp_left And.right
  · rename_i hlong
    have hholds : PrependGrows p bytes.length → ArrayGrows p.unuseInternalData 1 := fun hgrows =>
      arrayGrows_unuse.mpr (hgrows.resolve_left fun hfits => hlong hfits.1)
    dsimp only
    split
    · rename_i hbytes
      exact Asserts.imp (hfill hbytes) fun hgrows => .inr (hholds hgrows)
    · exact Asserts.imp hprepend hholds

/-- A prepended packet that stays short represents its bytes. -/
theorem Prepended.rep {bytes : List UInt8} {q : PacketImpl} (hq : Prepended p c bytes q)
    (h : Rep p trimmed c) (hshort : (bytes ++ c).length < 2 ^ 32) : Rep q false (bytes ++ c) :=
  hq.1.rep hq.2 (by rw [h.len, List.length_append, Nat.add_comm]) hshort

/-- A packet that stays short holds the copy before its bytes. -/
theorem prependCopy_spec {bytes : List UInt8} (h : Rep p false c)
    (hshort : (bytes ++ c).length < 2 ^ 32) :
    Asserts (PrependGrows p bytes.length) (fun q => Rep q false (bytes ++ c)) (prependCopy bytes p) :=
  (prependCopy_layout bytes h.toLayout).mono fun _ hq => hq.rep h hshort

/-- A packet that stays short holds the header before its bytes. -/
theorem prependUninitializedHeader_spec {bytes : List UInt8} (h : Rep p false c)
    (hshort : (bytes ++ c).length < 2 ^ 32) :
    Asserts (PrependGrows p bytes.length) (fun q => Rep q false (bytes ++ c))
      (p.prependUninitializedHeader bytes) :=
  (prependUninitializedHeader_layout bytes h.toLayout).mono fun _ hq => hq.rep h hshort

/-- `append` to a packet that is not empty joins the fragments. -/
theorem append_layout {q : PacketImpl} {trimmed' : Bool} {c' : List UInt8} (h : Layout p trimmed c)
    (h' : Layout q trimmed' c') (hlen : p.len ≠ 0) :
    Asserts (ArrayGrows p q.nrFrags)
      (fun r => Layout r trimmed (c ++ c') ∧ r.len = toUnsigned (p.len + q.len)) (p.append q) := by
  unfold append
  rw [if_neg hlen]
  apply (allocateIfNeeded_spec q.nrFrags h).bind
  rintro x ⟨hx, hroom, hnr, hxlen, _, _⟩
  obtain ⟨hq, hall⟩ := unuse_layout h' false
  have hbounds : x.nrFrags + q.unuseInternalData.nrFrags < x.allocatedFrags + 1 := by
    rw [unuse_nrFrags]
    omega
  simp only [inBounds_eq_ok hbounds, ok_bind]
  refine ⟨⟨?_, hx.frags.append (map_elsewhere_outside _), ?_, hx.allocated, hx.headroom⟩, ?_⟩
  · rw [content_append, content_elsewhere, hx.content, hq.content]
  · simpa [nrFrags] using Nat.lt_succ_iff.mp hbounds
  · simp only [hxlen, unuse_len]

/-- `append` joins the bytes. An empty packet is replaced by the other one. -/
theorem append_spec {q : PacketImpl} {trimmed' : Bool} {c' : List UInt8} (h : Rep p trimmed c)
    (h' : Rep q trimmed' c') (hshort : (c ++ c').length < 2 ^ 32) :
    Asserts (p.len = 0 ∨ ArrayGrows p q.nrFrags)
      (fun r => Rep r (if c = [] then trimmed' else trimmed) (c ++ c')) (p.append q) := by
  have hlen := h.len
  by_cases hzero : p.len = 0
  · have hnil : c = [] := List.eq_nil_of_length_eq_zero (hlen.symm.trans hzero)
    subst hnil
    unfold append
    rw [if_pos hzero, if_pos rfl]
    exact h'
  · have hc : c ≠ [] := by
      rintro rfl
      exact hzero hlen
    rw [if_neg hc]
    have happend := (append_layout h.toLayout h'.toLayout hzero).imp
      fun hgrows : p.len = 0 ∨ ArrayGrows p q.nrFrags => hgrows.resolve_left hzero
    refine happend.mono ?_
    rintro r ⟨hr, hrlen⟩
    exact hr.rep hrlen (by rw [hlen, h'.len, List.length_append]) hshort

/-! ### Trimming -/

/-- The loop skips the fragments `pre`, and `left` bytes of the next one. -/
theorem skipFrags_spec (frags : List Fragment) (howMuch : Nat)
    (h : howMuch ≤ (content frags).length) :
    ∃ left pre rest, skipFrags howMuch frags = .ok (left, rest) ∧ frags = pre ++ rest ∧
      (content pre).length + left = howMuch ∧
      (left = 0 ∨ ∃ f rest', rest = f :: rest' ∧ left < f.size) := by
  induction frags generalizing howMuch with
  | nil =>
    have hzero : howMuch = 0 := Nat.le_zero.mp h
    subst hzero
    exact ⟨0, [], [], rfl, rfl, rfl, .inl rfl⟩
  | cons f frags ih =>
    cases howMuch with
    | zero => exact ⟨0, [], f :: frags, rfl, rfl, rfl, .inl rfl⟩
    | succ howMuch =>
      rw [content_cons, List.length_append] at h
      unfold skipFrags
      split
      · rename_i hle
        have hsize : f.size = f.bytes.length := rfl
        obtain ⟨left, pre, rest, hskip, hfrags, hsum, hleft⟩ :=
          ih (howMuch + 1 - f.size) (by omega)
        have hsum' : (content (f :: pre)).length + left = howMuch + 1 := by
          clear hleft
          rw [content_cons, List.length_append]
          omega
        exact ⟨left, f :: pre, rest, hskip, by rw [hfrags]; rfl, hsum', hleft⟩
      · rename_i hlt
        exact ⟨howMuch + 1, [], f :: frags, rfl, rfl, by simp, .inr ⟨f, frags, rfl, by omega⟩⟩

/-- The first fragments of a list in order are in order. -/
theorem FragsOk.left {headroom : Nat} {frags frags' : List Fragment}
    (h : FragsOk headroom trimmed (frags ++ frags')) : FragsOk headroom trimmed frags := by
  cases frags with
  | nil => exact trivial
  | cons f frags => exact ⟨h.1, fun g hg => h.2 g (List.mem_append_left _ hg)⟩

/-- Fragments that are not the first ones. -/
theorem FragsOk.right {headroom : Nat} {frags frags' : List Fragment}
    (h : FragsOk headroom trimmed (frags ++ frags')) (hne : frags ≠ []) :
    ∀ f ∈ frags', Outside f := by
  cases frags with
  | nil => exact absurd rfl hne
  | cons g frags => exact fun f hf => h.2 f (List.mem_append_right _ hf)

/-- `_headroom` after fragments at the front were dropped. -/
theorem dropFrags_layout {pre rest : List Fragment} (h : Layout p trimmed c)
    (hp : p.frags = pre ++ rest) (len : Nat) :
    let q : PacketImpl := { p with len := len, frags := rest }
    Layout (if q.usingInternalData then q else { q with headroom := internalDataSize }) trimmed
      (content rest) := by
  intro q
  have hroom := h.room
  rw [nrFrags, hp, List.length_append] at hroom
  have hfrags := h.frags
  rw [hp] at hfrags
  have hq : FragsOk p.headroom trimmed rest := by
    cases pre with
    | nil => exact hfrags
    | cons f pre => exact .of_outside (hfrags.right (by simp))
  have hlayout : Layout q trimmed (content rest) :=
    ⟨rfl, hq, Nat.le_of_add_left_le hroom, h.allocated, h.headroom⟩
  rcases hlayout.cases with ⟨hnot, hall⟩ | ⟨husing, _⟩
  · rw [if_neg (by simp [hnot])]
    exact ⟨rfl, .of_outside hall, hlayout.room, h.allocated, Nat.le_refl _⟩
  · rw [if_pos husing]
    exact hlayout

/-- An outside fragment that still has bytes does not point into `_data`. -/
theorem Outside.base_eq_none {f : Fragment} {n : Nat} (h : Outside f) (hn : n < f.size) :
    f.base = none := by
  rcases h with hnone | ⟨_, hnil⟩
  · exact hnone
  · simp [Fragment.size, hnil] at hn

/-- Cutting within the first fragment drops the bytes. -/
theorem cutFront_spec {f : Fragment} {frags : List Fragment} {left : Nat} (h : Layout p trimmed c)
    (hp : p.frags = f :: frags) (hleft : left < f.size) :
    ∃ q, p.cutFront left = .ok q ∧ Layout q trimmed (c.drop left) ∧ q.len = p.len := by
  have hcut : p.cutFront left = .ok { p with
      headroom := if p.usingInternalData then p.headroom + left else p.headroom
      frags := ⟨f.base.map (· + left), f.bytes.drop left⟩ :: frags } := by
    unfold cutFront
    rw [hp]
  refine ⟨_, hcut, ?_, rfl⟩
  have hcontent := h.content
  have hroom := h.room
  rw [hp] at hcontent
  rw [nrFrags, hp] at hroom
  have hdrop : content (⟨f.base.map (· + left), f.bytes.drop left⟩ :: frags) = c.drop left := by
    rw [← hcontent, content_cons, content_cons, List.drop_append_of_le_length (Nat.le_of_lt hleft)]
  rcases h.cases with ⟨hnot, hall⟩ | ⟨husing, off, bytes, frags', hp', hoff, hend, hin, htrim, hout⟩
  · have hf : f.base = none := (hall f (by simp [hp])).base_eq_none hleft
    have htail : ∀ g ∈ frags, Outside g := fun g hg => hall g (by simp [hp, hg])
    simp only [hnot, Bool.false_eq_true, if_false]
    exact ⟨hdrop, ⟨.inl (.inl (by simp [hf])), htail⟩, hroom, h.allocated, h.headroom⟩
  · obtain ⟨rfl, rfl⟩ : f = ⟨some off, bytes⟩ ∧ frags = frags' := by simpa [hp] using hp'
    simp only [Fragment.size] at hleft
    simp only [husing, if_true]
    refine ⟨hdrop, ⟨.inr ⟨off + left, by omega, rfl, ?_, ?_, ?_⟩, hout⟩, hroom, h.allocated, ?_⟩
    · simp only [Fragment.size, List.length_drop]
      omega
    · simp only [Fragment.size, List.length_drop]
      omega
    · intro ht
      have := htrim ht
      simp only
      omega
    · simp only
      omega

/-- Trimming the front drops the first bytes, and asserts that there are as many. -/
theorem trimFront_spec {howMuch : Nat} (h : Rep p trimmed c) :
    Asserts (howMuch ≤ p.len) (fun q => howMuch ≤ c.length ∧ Rep q trimmed (c.drop howMuch))
      (p.trimFront howMuch) := by
  apply (asserts_check.imp fun hle => decide_eq_true hle).bind
  intro _ hle
  have hle : howMuch ≤ c.length := by simpa [h.len] using hle
  obtain ⟨left, pre, rest, hskip, hp, hsum, hleft⟩ :=
    skipFrags_spec p.frags howMuch (by rw [h.content]; exact hle)
  rw [hskip, ok_bind]
  dsimp only
  have hdrop : (content rest).drop left = c.drop howMuch := by
    rw [← h.content, hp, content_append, ← hsum, List.drop_append, List.drop_eq_nil_of_le
      (Nat.le_add_right _ _), List.nil_append, Nat.add_sub_cancel_left]
  have hlayout := dropFrags_layout h.toLayout hp (p.len - howMuch)
  have hlen : p.len - howMuch = (c.drop howMuch).length := by rw [List.length_drop, h.len]
  have hshort : (c.drop howMuch).length < 2 ^ 32 := by
    have := h.short
    rw [List.length_drop]
    omega
  dsimp only at hlayout
  split
  · rename_i hzero
    subst hzero
    rw [List.drop_zero] at hdrop
    rw [hdrop] at hlayout
    refine ⟨hle, hlayout, ?_, hshort⟩
    split <;> exact hlen
  · rename_i hpos
    obtain ⟨f, rest', hrest, hlt⟩ := hleft.resolve_left hpos
    obtain ⟨q, hq, hqlayout, hqlen⟩ := cutFront_spec hlayout
      (by split <;> exact hrest) hlt
    rw [hq]
    rw [hdrop] at hqlayout
    refine ⟨hle, hqlayout, hqlen.trans ?_, hshort⟩
    split <;> exact hlen

/-- The number of bytes does not depend on the order of the fragments. -/
theorem content_length_reverse (frags : List Fragment) :
    (content frags.reverse).length = (content frags).length := by
  induction frags with
  | nil => rfl
  | cons f frags ih =>
    rw [List.reverse_cons, content_append, List.length_append, ih, content_cons, content_cons,
      content_nil, List.append_nil, List.length_append, Nat.add_comm]

/-- The last fragment gets shorter. `f :: rest` lists the fragments from the back. -/
theorem cutBack_spec {f : Fragment} {rest : List Fragment} {left : Nat} (h : Layout p trimmed c)
    (hp : p.frags = rest.reverse ++ [f]) (hleft : left < f.size) (hpos : 0 < left) :
    ∃ q, p.cutBack left (f :: rest) = .ok q ∧
      Layout q (trimmed || q.headroom != p.headroom) (c.take (c.length - left)) ∧
      q.len = p.len := by
  have hsize : f.size = f.bytes.length := rfl
  have hcontent : content (rest.reverse ++ [⟨f.base, f.bytes.take (f.size - left)⟩]) =
      c.take (c.length - left) := by
    rw [← h.content, hp]
    simp only [content_append, content_cons, content_nil, List.append_nil, List.length_append]
    have hindex : (content rest.reverse).length + f.bytes.length - left =
        (content rest.reverse).length + (f.size - left) := by omega
    rw [hindex, List.take_length_add_append]
  have hroom := h.room
  rw [nrFrags, hp, List.length_append] at hroom
  have hfrags := h.frags
  rw [hp] at hfrags
  -- The headroom grows only when the packet is left with one fragment in its own buffer.
  cases rest with
  | nil =>
    rcases h.cases with ⟨hnot, hall⟩ | ⟨husing, off, bytes, frags, hp', hoff, hend, hin, _, _⟩
    -- The fragment is elsewhere: nothing but its size changes.
    · have hf : f.base = none := (hall f (by simp [hp])).base_eq_none hleft
      refine ⟨{ p with frags := [⟨f.base, f.bytes.take (f.size - left)⟩] }, ?_, ?_, rfl⟩
      · simp [cutBack, usingInternalData, hf]
      · exact ⟨hcontent, ⟨.inl (.inl hf), by simp⟩, hroom, h.allocated, h.headroom⟩
    · obtain ⟨rfl, rfl⟩ : f = ⟨some off, bytes⟩ ∧ [] = frags := by simpa [hp] using hp'
      simp only [Fragment.size] at hleft hsize
      refine ⟨{ p with
        headroom := p.headroom + left
        frags := [⟨some off, bytes.take (bytes.length - left)⟩] }, ?_, ?_, rfl⟩
      · simp [cutBack, usingInternalData, hoff, Fragment.size]
      · have hne : (p.headroom + left != p.headroom) = true := by
          simp only [bne_iff_ne]
          omega
        have htake : (bytes.take (bytes.length - left)).length = bytes.length - left := by
          rw [List.length_take]
          omega
        rw [hne, Bool.or_true]
        refine ⟨hcontent, ⟨.inr ⟨off, hoff, rfl, ?_, ?_, by simp⟩, by simp⟩, hroom, h.allocated, ?_⟩
        · rw [Fragment.size, htake]
          omega
        · rw [Fragment.size, htake]
          simp only
          omega
        · simp only
          omega
  | cons g rest =>
    have hne : (g :: rest).reverse ≠ [] := by simp
    have hf : f.base = none := (hfrags.right hne f (by simp)).base_eq_none hleft
    refine ⟨{ p with
      frags := (g :: rest).reverse ++ [⟨f.base, f.bytes.take (f.size - left)⟩] }, rfl, ?_, rfl⟩
    simp only [bne_self_eq_false, Bool.or_false]
    have hcount : rest.length + 2 ≤ p.allocatedFrags := by
      simp only [List.length_reverse, List.length_cons, List.length_nil] at hroom
      omega
    exact ⟨hcontent, hfrags.left.append (by simpa using .inl hf), by simpa [nrFrags] using hcount,
      h.allocated, h.headroom⟩

/-- Trimming internal data at the back makes `_headroom` too large. -/
theorem trimBack_spec {howMuch : Nat} (h : Rep p trimmed c) :
    Asserts (howMuch ≤ p.len) (fun q => howMuch ≤ c.length ∧
      Rep q (trimmed || q.headroom != p.headroom) (c.take (c.length - howMuch)))
      (p.trimBack howMuch) := by
  apply (asserts_check.imp fun hle => decide_eq_true hle).bind
  intro _ hle
  have hle : howMuch ≤ c.length := by simpa [h.len] using hle
  obtain ⟨left, pre, rest, hskip, hp, hsum, hleft⟩ :=
    skipFrags_spec p.frags.reverse howMuch (by rw [content_length_reverse, h.content]; exact hle)
  rw [hskip, ok_bind]
  dsimp only
  -- The loop runs from the back: `pre` are the fragments that go, `left` is cut from the next one.
  have hp' : p.frags = rest.reverse ++ pre.reverse := by
    rw [← List.reverse_append, ← hp, List.reverse_reverse]
  have hlengths : c.length = (content rest.reverse).length + (content pre).length := by
    rw [← h.content, hp', content_append, List.length_append, content_length_reverse pre]
  have htake : (content rest.reverse).take ((content rest.reverse).length - left) =
      c.take (c.length - howMuch) := by
    have hsub : c.length - howMuch = (content rest.reverse).length - left := by omega
    rw [hsub, ← h.content, hp', content_append, List.take_append_of_le_length (Nat.sub_le _ _)]
  have hlen : p.len - howMuch = (c.take (c.length - howMuch)).length := by
    rw [List.length_take, h.len]
    omega
  have hshort : (c.take (c.length - howMuch)).length < 2 ^ 32 := by
    have := h.short
    rw [List.length_take]
    omega
  have hroom := h.room
  have hfrags := h.frags
  rw [nrFrags, hp', List.length_append] at hroom
  rw [hp'] at hfrags
  have hlayout : Layout { p with len := p.len - howMuch, frags := rest.reverse } trimmed
      (content rest.reverse) :=
    ⟨rfl, hfrags.left, Nat.le_of_add_right_le hroom, h.allocated, h.headroom⟩
  split
  · rename_i hzero
    subst hzero
    rw [Nat.sub_zero, List.take_length] at htake
    rw [htake] at hlayout
    refine ⟨hle, ?_, hlen, hshort⟩
    simpa using hlayout
  · rename_i hpos
    -- The cut ends inside a fragment, and that cut moves `_headroom`.
    obtain ⟨f, rest', rfl, hlt⟩ := hleft.resolve_left hpos
    obtain ⟨q, hq, hqlayout, hqlen⟩ := cutBack_spec hlayout (List.reverse_cons ..) hlt (by omega)
    rw [htake] at hqlayout
    rw [hq]
    exact ⟨hle, hqlayout, hqlen.trans hlen, hshort⟩

end Netstar.Proofs.Net
