import Netstar.Proofs.Net.Packet

/-!
# `Netstar.Proofs.Net.PacketShare`: shared and linearized packets

The operations that read a packet through its fragment array. `share` makes a second packet over the
same bytes. `linearize` puts the first bytes from some fragment on into one fragment, and
`get_header` uses it when the header does not lie in one fragment.
-/

set_option autoImplicit false

namespace Netstar.Proofs.Net

open Netstar.Lib (Sat ok_bind)
open Netstar.Spec.Net
open Netstar.Spec.Net.PacketImpl

variable {p : PacketImpl} {trimmed : Bool} {c : List UInt8}

/-- What holds of a packet whose internal data was not trimmed holds of any packet. -/
theorem Rep.weaken (h : Rep p false c) : Rep p trimmed c := by
  have hfrags : FragsOk p.headroom trimmed p.frags := by
    have := h.frags
    cases hp : p.frags with
    | nil => trivial
    | cons f frags =>
      rw [hp] at this
      refine ⟨?_, this.2⟩
      rcases this.1 with hout | ⟨off, hoff, hbase, hend, hin, hroom⟩
      · exact .inl hout
      · exact .inr ⟨off, hoff, hbase, hend, hin, fun _ => hroom rfl⟩
  exact ⟨⟨h.content, hfrags, h.room, h.allocated, h.headroom⟩, h.len, h.short⟩

/-! ### Sharing -/

/-- The second loop of `share` on a new packet `n` with the bytes `cn`. -/
theorem shareFrags_spec {len : Nat} (hlen : len < 2 ^ 32) (frags : List Fragment) (offset : Nat)
    (n : PacketImpl) (cn : List UInt8) (hn : Rep n false cn)
    (hle : cn.length ≤ len) (hoffset : offset = 0 ∨ ∃ f rest, frags = f :: rest ∧ offset < f.size)
    (henough : len ≤ cn.length + ((content frags).drop offset).length)
    (hroom : n.nrFrags + frags.length ≤ n.allocatedFrags) :
    ∃ q, shareFrags len offset frags n = .ok q ∧
      Rep q false (cn ++ ((content frags).drop offset).take (len - cn.length)) := by
  induction frags generalizing offset n cn with
  | nil =>
    have hzero : len - cn.length = 0 := by
      simp at henough
      omega
    refine ⟨n, ?_, by simpa [hzero] using hn⟩
    unfold shareFrags
    rw [hn.len]
    exact if_neg (by omega)
  | cons f frags ih =>
    unfold shareFrags
    rw [hn.len]
    split
    · rename_i hlt
      -- the bytes of the first fragment that go into the new packet
      let bytes := (f.bytes.drop offset).take (len - cn.length)
      have hoff : offset ≤ f.bytes.length := by
        rcases hoffset with h | ⟨g, rest, heq, h⟩
        · omega
        · obtain ⟨rfl, rfl⟩ : f = g ∧ frags = rest := by simpa using heq
          exact Nat.le_of_lt h
      have hfsize : min (len - cn.length) (f.size - offset) = bytes.length := by
        rw [List.length_take, List.length_drop, Fragment.size]
      have hbytes : (f.bytes.drop offset).take bytes.length = bytes := by
        rw [List.length_take, ← List.take_eq_take_min]
      have hshort : (cn ++ bytes).length ≤ len := by
        rw [List.length_append, ← hfsize]
        omega
      have hdrop : (content (f :: frags)).drop offset = f.bytes.drop offset ++ content frags := by
        rw [content_cons, List.drop_append_of_le_length hoff]
      have hpush := pushFrag_eq_ok (p := n) (.elsewhere bytes) (by
        rw [List.length_cons] at hroom
        omega)
      dsimp only
      rw [hfsize, hbytes, hpush, ok_bind]
      have hn' : Rep { n with
          len := toUnsigned (n.len + bytes.length)
          frags := n.frags ++ [.elsewhere bytes] } false (cn ++ bytes) := by
        have hout : ∀ g ∈ [Fragment.elsewhere bytes], Outside g := by simp [outside_elsewhere]
        refine ⟨⟨by simp [hn.content, Fragment.elsewhere], hn.frags.append hout, ?_, hn.allocated,
          hn.headroom⟩, ?_, by omega⟩
        · rw [List.length_cons] at hroom
          simp only [nrFrags, List.length_append, List.length_cons, List.length_nil] at hroom ⊢
          omega
        · rw [List.length_append] at hshort ⊢
          rw [hn.len, toUnsigned_eq (by omega)]
      have htake : ((content (f :: frags)).drop offset).take (len - cn.length) =
          bytes ++ ((content frags).drop 0).take (len - (cn ++ bytes).length) := by
        rw [hdrop, List.take_append, List.drop_zero, List.length_append, ← hfsize, List.length_drop,
          Fragment.size]
        congr 2
        omega
      have henough' : len ≤ (cn ++ bytes).length + ((content frags).drop 0).length := by
        rw [hdrop, List.length_append, List.length_drop] at henough
        rw [List.drop_zero, List.length_append, ← hfsize, Fragment.size]
        omega
      obtain ⟨q, hq, hrep⟩ := ih 0 _ (cn ++ bytes) hn' hshort (.inl rfl) henough' (by
        rw [List.length_cons] at hroom
        simp only [nrFrags, List.length_append, List.length_cons, List.length_nil] at hroom ⊢
        omega)
      exact ⟨q, hq, by rwa [htake, ← List.append_assoc]⟩
    · rename_i hge
      have hzero : len - cn.length = 0 := by omega
      exact ⟨n, rfl, by simpa [hzero] using hn⟩

/-- `share` keeps the bytes of the packet, and the new packet holds the bytes from `offset` on. -/
theorem share_spec {offset len : Nat} (h : Rep p trimmed c) (hbounds : offset + len ≤ c.length) :
    Asserts True (fun r => Rep r.1 trimmed c ∧ Rep r.2 false ((c.drop offset).take len))
      (p.share offset len) := by
  obtain ⟨hp, _⟩ := unuse_spec h trimmed
  apply ((allocate_spec 1).imp fun _ => by decide).bind
  rintro n ⟨hn, hnil, _⟩
  -- The array of the packet is an allocated one, so there can be another one of this size.
  have hgrows : ArrayGrows n p.unuseInternalData.nrFrags := by
    have hroom := hp.room
    have hallocated := hp.allocated.2
    refine .inr ?_
    rw [nrFrags, hnil, List.length_nil]
    omega
  apply ((allocateIfNeeded_spec p.unuseInternalData.nrFrags hn.toLayout).imp fun _ => hgrows).bind
  rintro n' ⟨hn', hroom, hnr, hlen, _, _⟩
  have hrep : Rep n' false [] := ⟨hn', by rw [hlen, hn.len], hn.short⟩
  obtain ⟨left, pre, rest, hskip, hfrags, hsum, hleft⟩ :=
    skipFrags_spec p.unuseInternalData.frags offset (by rw [hp.content]; omega)
  have hdrop : (content rest).drop left = c.drop offset := by
    rw [← hp.content, hfrags, content_append, ← hsum, List.drop_length_add_append]
  have hlength : p.unuseInternalData.nrFrags = pre.length + rest.length := by
    rw [nrFrags, hfrags, List.length_append]
  have hshort := h.short
  obtain ⟨q, hq, hqrep⟩ := shareFrags_spec (show len < 2 ^ 32 by omega) rest left n' [] hrep
    (Nat.zero_le _) hleft (by rw [hdrop, List.length_drop]; omega) (by omega)
  rw [hskip, ok_bind]
  dsimp only
  rw [hq]
  rw [hdrop] at hqrep
  exact ⟨hp, hqrep⟩

/-! ### Linearizing -/

/-- The first loop of `linearize` collects enough fragments. -/
theorem collectFrags_spec (desiredSize : Nat) (frags : List Fragment) (accumSize : Nat)
    (h : desiredSize ≤ accumSize + (content frags).length) :
    ∃ collected rest, collectFrags desiredSize accumSize frags = .ok (collected, rest) ∧
      frags = collected ++ rest ∧ desiredSize ≤ accumSize + (content collected).length ∧
      (collected = [] → desiredSize ≤ accumSize) := by
  induction frags generalizing accumSize with
  | nil =>
    unfold collectFrags
    rw [if_neg (by simpa using h)]
    exact ⟨[], [], rfl, rfl, h, fun _ => by simpa using h⟩
  | cons f frags ih =>
    unfold collectFrags
    split
    · rw [content_cons, List.length_append] at h
      obtain ⟨collected, rest, hcollect, hfrags, hsize, _⟩ :=
        ih (accumSize + f.size) (by rw [Fragment.size]; omega)
      refine ⟨f :: collected, rest, ?_, by rw [hfrags]; rfl, ?_, by simp⟩
      · dsimp only
        rw [hcollect]
        rfl
      · rw [content_cons, List.length_append]
        rw [Fragment.size] at hsize
        omega
    · rename_i hge
      exact ⟨[], f :: frags, rfl, rfl, by omega, fun _ => by omega⟩

/-- `linearize` keeps the bytes, and the fragment at `at_frag` has at least the desired size. It must
collect a fragment, unless there is at most one. -/
theorem linearizeAt_spec {atFrag desiredSize : Nat} (h : Rep p trimmed c)
    (hatFrags : atFrag ≤ p.nrFrags)
    (henough : desiredSize ≤ (content (p.unuseInternalData.frags.drop atFrag)).length)
    (hcollects : 0 < desiredSize ∨ atFrag = 0 ∧ p.nrFrags ≤ 1) :
    ∃ q g rest, p.linearizeAt atFrag desiredSize = .ok q ∧ Rep q false c ∧
      q.frags = p.unuseInternalData.frags.take atFrag ++ g :: rest ∧
      desiredSize ≤ g.size := by
  obtain ⟨hp, hall⟩ := unuse_spec h false
  obtain ⟨collected, rest, hcollect, hfrags, hsize, hempty⟩ :=
    collectFrags_spec desiredSize (p.unuseInternalData.frags.drop atFrag) 0 (by omega)
  have hlength : p.nrFrags - atFrag = collected.length + rest.length := by
    rw [← List.length_append, ← hfrags, List.length_drop, ← unuse_nrFrags, nrFrags]
  have hroom := h.room
  have hallocated := h.allocated
  rw [defaultNrFrags] at hallocated
  -- With no fragment collected, the copy of the rest would overlap itself. `hcollects` leaves at
  -- most one fragment then.
  have hoverlap : (collected.isEmpty && decide (2 ≤ rest.length)) = false := by
    cases collected with
    | cons f collected => rfl
    | nil =>
      have hzero := hempty rfl
      rw [List.length_nil] at hlength
      simp only [List.isEmpty_nil, Bool.true_and, decide_eq_false_iff_not]
      omega
  -- The new fragment takes the place of those collected, so the array is large enough.
  have hbounds : atFrag + rest.length < p.allocatedFrags := by
    cases collected with
    | nil =>
      have hzero := hempty rfl
      rw [List.length_nil] at hlength
      omega
    | cons f collected =>
      rw [List.length_cons] at hlength
      omega
  have hrun : p.linearizeAt atFrag desiredSize = .ok { p.unuseInternalData with
      frags := p.unuseInternalData.frags.take atFrag ++
        .elsewhere (collected.flatMap (·.bytes)) :: rest } := by
    simp only [linearizeAt, hcollect, ok_bind, hoverlap, Bool.false_eq_true, if_false,
      unuse_allocatedFrags, inBounds_eq_ok hbounds]
    rfl
  refine ⟨_, .elsewhere (collected.flatMap (·.bytes)), rest, hrun, ?_, rfl, ?_⟩
  · refine ⟨⟨?_, .of_outside ?_, ?_, hp.allocated, hp.headroom⟩, hp.len, hp.short⟩
    · have hcontent := hp.content
      rw [← List.take_append_drop atFrag p.unuseInternalData.frags, hfrags, content_append,
        content_append] at hcontent
      rw [content_append]
      exact hcontent
    · intro f hf
      rcases List.mem_append.mp hf with hf | hf
      · exact hall f (List.mem_of_mem_take hf)
      · rcases List.mem_cons.mp hf with rfl | hf
        · exact outside_elsewhere _
        · have hdrop : f ∈ p.unuseInternalData.frags.drop atFrag := by
            rw [hfrags]
            exact List.mem_append_right _ hf
          exact hall f (List.mem_of_mem_drop hdrop)
    · simp only [nrFrags, List.length_append, List.length_take, List.length_cons,
        unuse_allocatedFrags]
      omega
  · rw [Nat.zero_add] at hsize
    exact hsize

/-- `linearize` of the whole packet. A packet of length zero must not have two fragments. -/
theorem linearize_spec (h : Rep p trimmed c) (hempty : c = [] → p.nrFrags ≤ 1) :
    ∃ q, p.linearize = .ok q ∧ Rep q false c := by
  obtain ⟨hp, _⟩ := unuse_spec h false
  have hcollects : 0 < p.len ∨ 0 = 0 ∧ p.nrFrags ≤ 1 := by
    cases c with
    | nil => exact .inr ⟨rfl, hempty rfl⟩
    | cons b c => exact .inl (by rw [h.len]; exact Nat.succ_pos _)
  obtain ⟨q, _, _, hq, hrep, _⟩ := linearizeAt_spec h (Nat.zero_le _)
    (Nat.le_of_eq (by rw [List.drop_zero, hp.content, h.len])) hcollects
  exact ⟨q, hq, hrep⟩

/-! ### Headers -/

/-- The loop of `get_header` finds the fragment with the given offset. -/
theorem findFrag_spec (frags : List Fragment) (i offset : Nat)
    (h : offset < (content frags).length) :
    ∃ pre f rest o, findFrag i offset frags = some (i + pre.length, f, o) ∧
      frags = pre ++ f :: rest ∧ o < f.size ∧ offset = (content pre).length + o := by
  induction frags generalizing i offset with
  | nil => exact absurd h (Nat.not_lt_zero _)
  | cons f frags ih =>
    unfold findFrag
    split
    · rename_i hle
      rw [content_cons, List.length_append] at h
      rw [Fragment.size] at hle ⊢
      obtain ⟨pre, g, rest, o, hfind, hfrags, ho, hoffset⟩ :=
        ih (i + 1) (offset - f.bytes.length) (by omega)
      refine ⟨f :: pre, g, rest, o, ?_, by rw [hfrags]; rfl, ho, ?_⟩
      · rw [hfind, List.length_cons, Nat.add_assoc, Nat.add_comm 1]
      · rw [content_cons, List.length_append]
        omega
    · rename_i hlt
      exact ⟨[], f, frags, offset, rfl, rfl, Nat.lt_of_not_le hlt, by simp⟩

/-- There is no such fragment behind the last byte. -/
theorem findFrag_eq_none (frags : List Fragment) (i offset : Nat)
    (h : (content frags).length ≤ offset) : findFrag i offset frags = none := by
  induction frags generalizing i offset with
  | nil => rfl
  | cons f frags ih =>
    rw [content_cons, List.length_append] at h
    unfold findFrag
    rw [if_pos (by rw [Fragment.size]; omega)]
    exact ih _ _ (by rw [Fragment.size]; omega)

/-- A range of the bytes that lies in one fragment. -/
theorem slice_of_frag {pre rest : List Fragment} {f : Fragment} {o size : Nat}
    (h : o + size ≤ f.size) :
    (f.bytes.drop o).take size =
      ((content (pre ++ f :: rest)).drop ((content pre).length + o)).take size := by
  rw [Fragment.size] at h
  rw [content_append, List.drop_length_add_append, content_cons, List.drop_append_of_le_length
    (by omega), List.take_append_of_le_length (by rw [List.length_drop]; omega)]

/-- `unuse_internal_data` keeps the bytes of each fragment. -/
theorem unuse_bytes : p.unuseInternalData.frags.map (·.bytes) = p.frags.map (·.bytes) := by
  unfold unuseInternalData
  split
  · split <;> simp_all [Fragment.elsewhere]
  · rfl

/-- Fragments with the same bytes have the same content. -/
theorem content_congr {frags frags' : List Fragment}
    (h : frags.map (·.bytes) = frags'.map (·.bytes)) : content frags = content frags' := by
  unfold content
  rw [List.flatMap_def, List.flatMap_def, h]

/-- Moving out of `_data` keeps the bytes of the first fragments. -/
theorem content_take_unuse (i : Nat) :
    content (p.unuseInternalData.frags.take i) = content (p.frags.take i) := by
  apply content_congr
  rw [List.map_take, List.map_take, unuse_bytes]

/-- Moving out of `_data` keeps the bytes of the last fragments. -/
theorem content_drop_unuse (i : Nat) :
    content (p.unuseInternalData.frags.drop i) = content (p.frags.drop i) := by
  apply content_congr
  rw [List.map_drop, List.map_drop, unuse_bytes]

/-- `get_header` keeps the bytes of the packet. The pointer is null when the header does not fit.
Otherwise the header is the range of the bytes that it asks for. -/
theorem getHeader_spec (offset size : Nat) (h : Rep p trimmed c) :
    ∃ q mem, p.getHeader offset size = .ok (q, mem) ∧ Rep q trimmed c ∧
      (c.length < offset + size → mem = none) ∧
      (offset + size ≤ c.length → 0 < size →
        ∃ bytes, mem = some bytes ∧ bytes.take size = (c.drop offset).take size) := by
  unfold getHeader
  rw [h.len]
  split
  · rename_i hlt
    exact ⟨p, none, rfl, h, fun _ => rfl, fun hle => by omega⟩
  · rename_i hle
    rcases Nat.lt_or_ge offset c.length with hlt | hge
    · obtain ⟨pre, f, rest, o, hfind, hfrags, ho, hoffset⟩ :=
        findFrag_spec p.frags 0 offset (by rw [h.content]; exact hlt)
      rw [hfind]
      dsimp only
      rw [Nat.zero_add]
      subst hoffset
      have hlength : p.nrFrags = pre.length + (rest.length + 1) := by
        rw [nrFrags, hfrags, List.length_append, List.length_cons]
      rcases Nat.lt_or_ge f.size (o + size) with hbig | hsmall
      · -- the header goes beyond its first fragment
        have htake : p.frags.take pre.length = pre := by rw [hfrags, List.take_left]
        have hdrop : p.frags.drop pre.length = f :: rest := by rw [hfrags, List.drop_left]
        have hc : c.length = (content pre).length + (content (f :: rest)).length := by
          rw [← h.content, hfrags, content_append, List.length_append]
        have henough :
            o + size ≤ (content (p.unuseInternalData.frags.drop pre.length)).length := by
          rw [content_drop_unuse, hdrop]
          omega
        obtain ⟨q, g, rest', hq, hrep, hqfrags, hg⟩ :=
          linearizeAt_spec h (by omega) henough (by omega)
        have hpre : (content (p.unuseInternalData.frags.take pre.length)).length =
            (content pre).length := by rw [content_take_unuse, htake]
        have hprelen : (p.unuseInternalData.frags.take pre.length).length = pre.length := by
          rw [List.length_take, ← nrFrags, unuse_nrFrags]
          omega
        have hget : q.frags[pre.length]? = some g := by
          rw [hqfrags, List.getElem?_append_right (by omega), hprelen, Nat.sub_self]
          rfl
        rw [if_pos hbig, hq, ok_bind, hget]
        refine ⟨q, _, rfl, hrep.weaken, fun hlong => by omega, fun _ _ => ⟨_, rfl, ?_⟩⟩
        rw [slice_of_frag hg, ← hqfrags, hrep.content, hpre]
      -- the header is in one fragment, and the packet stays as it is
      · have hget : p.frags[pre.length]? = some f := by
          rw [hfrags, List.getElem?_append_right (Nat.le_refl _), Nat.sub_self]
          rfl
        rw [if_neg (Nat.not_lt.mpr hsmall), ok_bind, hget]
        refine ⟨p, _, rfl, h, fun hlong => by omega, fun _ _ => ⟨_, rfl, ?_⟩⟩
        rw [slice_of_frag hsmall, ← hfrags, h.content]
    -- no fragment has the offset, as for an empty header at the end of the packet
    · rw [findFrag_eq_none p.frags 0 offset (by rw [h.content]; exact hge)]
      exact ⟨p, none, rfl, h, fun _ => rfl, fun _ hpos => by omega⟩

/-! ### Reserving and releasing -/

/-- Reserving fragments keeps the bytes. -/
theorem reserve_spec (nFrags : Nat) (h : Rep p trimmed c) :
    Asserts (ArrayGrows p (nFrags - p.nrFrags)) (fun q => Rep q trimmed c) (p.reserve nFrags) := by
  unfold reserve
  split
  · apply (allocateIfNeeded_spec _ h.toLayout).mono
    rintro q ⟨hq, _, _, hlen, _, _⟩
    exact ⟨hq, hlen.trans h.len, h.short⟩
  · exact h

end Netstar.Proofs.Net
