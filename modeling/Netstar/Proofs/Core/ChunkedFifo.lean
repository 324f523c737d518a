import Netstar.Lib.Chain
import Netstar.Lib.Result
import Netstar.Lib.Ring
import Netstar.Spec.Core.ChunkedFifo

/-!
# `Netstar.Proofs.Core.ChunkedFifo`: the chunked queue is a FIFO list

`Layout` describes the heap of a queue: the linked chunks with the items of each, the saved chunks,
and the chunks that a function has in hand. Every chunk is in one of the three places, the middle
chunks are full, and the two counters count. Each step of the source moves one chunk between the
places, and `Layout` has one rule for each of these moves.

The number of items in a chunk is a power of two up to 2^30, so that the items of two chunks fit the
32-bit sum in `size`. Every instance in the source has at most 128.
-/

set_option autoImplicit false

namespace Netstar.Proofs.Core.ChunkedFifo

open Netstar.Lib
open Netstar.Lib.Ring (Holds)
open Netstar.Spec.Core
open Netstar.Spec.Core.ChunkedFifo

variable {α : Type} {k : Nat} {f : ChunkedFifo α} {c : Chunk α} {xs : List α}
  {cs : List (Nat × List α)} {free loose : List Nat} {a : Nat}

/-- The chunk has the items `xs`. -/
structure ChunkHolds (k : Nat) (c : Chunk α) (xs : List α) : Prop where
  length : c.items.length = 2 ^ k
  holds : Holds c.items c.first.toNat (xs.map .live)
  last : c.last = c.first + UInt32.ofNat xs.length

/-- The linked chunks `cs`, the saved chunks `free` and the chunks in hand make up the heap. -/
structure Layout (k : Nat) (f : ChunkedFifo α) (cs : List (Nat × List α)) (free loose : List Nat) :
    Prop where
  linked : Chain f.heap (·.next) f.frontChunk (cs.map Prod.fst) none
  back : f.backChunk = (cs.map Prod.fst).getLast?
  freed : Chain f.heap (·.next) f.freeChunks free none
  nodup : (cs.map Prod.fst ++ free ++ loose).Nodup
  owned : ∀ a, f.heap a ≠ none → a ∈ cs.map Prod.fst ++ free ++ loose
  chunks : ∀ p ∈ cs, ∃ c, f.heap p.1 = some c ∧ ChunkHolds k c p.2
  spare : ∀ a ∈ free ++ loose, ∃ c, f.heap a = some c ∧ c.items.length = 2 ^ k
  nchunks : f.nchunks = cs.length
  nfreeChunks : f.nfreeChunks = free.length
  middle : ∀ p ∈ cs.tail.dropLast, p.2.length = 2 ^ k

/-- The queue has the items `xs`. -/
def Rep (k : Nat) (f : ChunkedFifo α) (xs : List α) : Prop :=
  ∃ cs free, Layout k f cs free [] ∧ (∀ p ∈ cs, p.2 ≠ []) ∧ cs.flatMap Prod.snd = xs

/-! ### One chunk -/

section Chunk

/-- The mask takes an index to its place in the chunk. -/
theorem mask_eq (idx : UInt32) : mask (2 ^ k) idx = idx.toNat % 2 ^ k :=
  Nat.and_two_pow_sub_one_eq_mod _ _

/-- Places go round in a chunk, whatever the index wraps to. -/
theorem toNat_add_ofNat_mod (x : UInt32) (i : Nat) (hk : k ≤ 30) :
    (x + UInt32.ofNat i).toNat % 2 ^ k = (x.toNat + i) % 2 ^ k := by
  have hdvd : 2 ^ k ∣ 2 ^ 32 := Nat.pow_dvd_pow 2 (by omega)
  rw [UInt32.toNat_add, UInt32.toNat_ofNat', Nat.add_mod_mod, Nat.mod_mod_of_dvd _ hdvd]

/-- A chunk has at most `2^30` places. -/
theorem two_pow_le (hk : k ≤ 30) : 2 ^ k ≤ 2 ^ 30 := Nat.pow_le_pow_right (by decide) hk

namespace ChunkHolds

/-- A new chunk. -/
theorem empty {items : List (Cell α)} (h : items.length = 2 ^ k) (next : Option Nat) :
    ChunkHolds k ⟨items, next, 0, 0⟩ [] where
  length := h
  holds := Holds.nil _ _
  last := rfl

/-- A chunk holds at most its capacity. -/
theorem length_le (h : ChunkHolds k c xs) : xs.length ≤ 2 ^ k := by
  have hfits := h.holds.fits
  rwa [List.length_map, h.length] at hfits

/-- The indices of a chunk give its size, also when they have wrapped. -/
theorem size_eq (h : ChunkHolds k c xs) (hk : k ≤ 30) : (c.last - c.first).toNat = xs.length := by
  have hle := h.length_le
  have hpow := two_pow_le hk
  rw [h.last, show c.first + UInt32.ofNat xs.length - c.first = UInt32.ofNat xs.length by grind]
  exact UInt32.toNat_ofNat_of_lt' (by rw [UInt32.size]; omega)

/-- `begin == end` says that the chunk is empty. -/
theorem first_eq_last (h : ChunkHolds k c xs) (hk : k ≤ 30) : c.first = c.last ↔ xs = [] := by
  constructor
  · intro heq
    have hsize := h.size_eq hk
    rw [heq, UInt32.sub_self] at hsize
    exact List.length_eq_zero_iff.mp hsize.symm
  · rintro rfl
    simpa using h.last.symm

/-- The item at `end` is constructed. -/
theorem push (h : ChunkHolds k c xs) (hk : k ≤ 30) (hroom : xs.length < 2 ^ k) (x : α) :
    ChunkHolds k { c with
      items := c.items.set (mask (2 ^ k) c.last) (.live x)
      last := c.last + 1 } (xs ++ [x]) where
  length := by
    rw [← h.length]
    exact List.length_set
  holds := by
    have hslot : mask (2 ^ k) c.last = (c.first.toNat + (xs.map Cell.live).length) % c.items.length := by
      rw [mask_eq, h.last, toNat_add_ofNat_mod _ _ hk, h.length, List.length_map]
    show Holds (c.items.set (mask (2 ^ k) c.last) (.live x)) c.first.toNat _
    rw [hslot, List.map_append]
    exact h.holds.push_back (by rw [List.length_map, h.length]; exact hroom) (.live x)
  last := by
    show c.last + 1 = c.first + UInt32.ofNat (xs ++ [x]).length
    rw [List.length_append, UInt32.ofNat_add, h.last]
    show c.first + UInt32.ofNat xs.length + 1 = c.first + (UInt32.ofNat xs.length + 1)
    grind

/-- The item at `begin` is destroyed. -/
theorem pop {x : α} (h : ChunkHolds k c (x :: xs)) (hk : k ≤ 30) :
    ChunkHolds k { c with
      items := c.items.set (mask (2 ^ k) c.first) .raw
      first := c.first + 1 } xs where
  length := by
    rw [← h.length]
    exact List.length_set
  holds := by
    have hslot : mask (2 ^ k) c.first = (c.first.toNat + 0) % c.items.length := by
      rw [mask_eq, h.length, Nat.add_zero]
    show Holds (c.items.set (mask (2 ^ k) c.first) .raw) (c.first + 1).toNat _
    rw [hslot]
    have hset := h.holds.set (i := 0) (by simp) Cell.raw
    refine hset.tail.congr ?_
    rw [List.length_set, h.length]
    exact (toNat_add_ofNat_mod c.first 1 hk).symm
  last := by
    show c.last = c.first + 1 + UInt32.ofNat xs.length
    rw [h.last, List.length_cons, UInt32.ofNat_add]
    show c.first + (UInt32.ofNat xs.length + 1) = c.first + 1 + UInt32.ofNat xs.length
    grind

/-- The first index leads to the front. -/
theorem front_eq (h : ChunkHolds k c xs) (hne : xs ≠ []) :
    c.items[mask (2 ^ k) c.first]? = xs.head?.map .live := by
  have hget := h.holds.get 0 (by simpa using List.length_pos_of_ne_nil hne)
  rw [Nat.add_zero, h.length] at hget
  rw [mask_eq, hget, List.getElem?_map, List.head?_eq_getElem?]

/-- The last index leads to the back. -/
theorem back_eq (h : ChunkHolds k c xs) (hk : k ≤ 30) (hne : xs ≠ []) :
    c.items[mask (2 ^ k) (c.last - 1)]? = xs.getLast?.map .live := by
  have hpos := List.length_pos_of_ne_nil hne
  have hlast : c.last - 1 = c.first + UInt32.ofNat (xs.length - 1) := by
    rw [h.last, UInt32.ofNat_sub hpos]
    show c.first + UInt32.ofNat xs.length - 1 = c.first + (UInt32.ofNat xs.length - 1)
    grind
  have hget := h.holds.get (xs.length - 1) (by rw [List.length_map]; omega)
  rw [h.length, ← toNat_add_ofNat_mod _ _ hk, ← hlast] at hget
  rw [mask_eq, hget, List.getElem?_map, List.getLast?_eq_getElem?]

end ChunkHolds

end Chunk

/-! ### Chunks between the places -/

/-- A pointer to a chunk that is there. -/
theorem deref_some (h : f.heap a = some c) : f.deref (some a) = .ok (a, c) := by
  simp only [deref, h]

/-- The middle chunks, when one is added behind. -/
theorem tail_dropLast_concat (cs : List (Nat × List α)) (p : Nat × List α) :
    (cs ++ [p]).tail.dropLast = cs.tail := by
  cases cs with
  | nil => rfl
  | cons q cs => rw [List.cons_append, List.tail_cons, List.dropLast_concat, List.tail_cons]

/-- The chunks of a list have their items. -/
def ItemsIn (k : Nat) (heap : Nat → Option (Chunk α)) (cs : List (Nat × List α)) : Prop :=
  ∀ p ∈ cs, ∃ c, heap p.1 = some c ∧ ChunkHolds k c p.2

/-- The chunks of a list have room for items. -/
def RoomIn (k : Nat) (heap : Nat → Option (Chunk α)) (as : List Nat) : Prop :=
  ∀ a ∈ as, ∃ c, heap a = some c ∧ c.items.length = 2 ^ k

/-- A write to another chunk. -/
theorem ItemsIn.frame {heap : Nat → Option (Chunk α)} (h : ItemsIn k heap cs)
    (ha : a ∉ cs.map Prod.fst) (v : Option (Chunk α)) : ItemsIn k (Function.update heap a v) cs := by
  intro p hp
  have hne : p.1 ≠ a := by
    intro hpa
    exact ha (hpa ▸ List.mem_map_of_mem hp)
  rw [Function.update_of_ne hne]
  exact h p hp

/-- A write to another chunk. -/
theorem RoomIn.frame {heap : Nat → Option (Chunk α)} {as : List Nat} (h : RoomIn k heap as)
    (ha : a ∉ as) (v : Option (Chunk α)) : RoomIn k (Function.update heap a v) as := by
  intro b hb
  have hne : b ≠ a := by
    rintro rfl
    exact ha hb
  rw [Function.update_of_ne hne]
  exact h b hb

/-- Chunks in a row. -/
theorem ItemsIn.append {heap : Nat → Option (Chunk α)} {cs' : List (Nat × List α)}
    (h : ItemsIn k heap cs) (h' : ItemsIn k heap cs') : ItemsIn k heap (cs ++ cs') := by
  intro p hp
  rcases List.mem_append.mp hp with hp | hp
  · exact h p hp
  · exact h' p hp

/-- One more chunk at the front. -/
theorem ItemsIn.cons {heap : Nat → Option (Chunk α)} (hc : heap a = some c)
    (hxs : ChunkHolds k c xs) (h : ItemsIn k heap cs) : ItemsIn k heap ((a, xs) :: cs) := by
  intro p hp
  rcases List.mem_cons.mp hp with rfl | hp
  · exact ⟨c, hc, hxs⟩
  · exact h p hp

/-- One more free chunk at the front. -/
theorem RoomIn.cons {heap : Nat → Option (Chunk α)} {as : List Nat} (hc : heap a = some c)
    (hlen : c.items.length = 2 ^ k) (h : RoomIn k heap as) : RoomIn k heap (a :: as) := by
  intro b hb
  rcases List.mem_cons.mp hb with rfl | hb
  · exact ⟨c, hc, hlen⟩
  · exact h b hb

/-- A chunk that a write brought to the heap, or that was there. -/
theorem mem_of_update {heap : Nat → Option (Chunk α)} {as : List Nat}
    (h : ∀ b, heap b ≠ none → b ∈ as) {v : Option (Chunk α)} (b : Nat)
    (hb : Function.update heap a v b ≠ none) : b = a ∨ b ∈ as := by
  by_cases heq : b = a
  · exact .inl heq
  · rw [Function.update_of_ne heq] at hb
    exact .inr (h b hb)

/-- The places as one list, with the chunk `a` in front. -/
theorem perm_loose (as bs ds : List Nat) (a : Nat) :
    (as ++ bs ++ a :: ds).Perm (a :: (as ++ (bs ++ ds))) := by
  rw [← List.append_assoc]
  exact List.perm_middle

/-- The places as one list, with the chunk `a` saved or in hand. -/
theorem perm_free (as bs ds : List Nat) (a : Nat) :
    (as ++ bs ++ a :: ds).Perm (as ++ a :: bs ++ ds) := by
  have hmiddle : (bs ++ a :: ds).Perm (a :: bs ++ ds) := List.perm_middle
  rw [List.append_assoc, List.append_assoc]
  exact hmiddle.append_left _

namespace Layout

/-- A new queue has no chunks. -/
theorem create : Layout k (ChunkedFifo.create : ChunkedFifo α) [] [] [] where
  linked := rfl
  back := rfl
  freed := rfl
  nodup := List.nodup_nil
  owned := fun _ ha => absurd rfl ha
  chunks := by simp
  spare := by simp
  nchunks := rfl
  nfreeChunks := rfl
  middle := by simp

/-- A chunk changes its items and keeps its link. -/
theorem modify {l₁ l₂ : List (Nat × List α)} {xs' : List α} {c' : Chunk α}
    (h : Layout k f (l₁ ++ (a, xs) :: l₂) free loose) (hc : f.heap a = some c)
    (hc' : ChunkHolds k c' xs') (hnext : c'.next = c.next)
    (hmiddle : ∀ p ∈ (l₁ ++ (a, xs') :: l₂).tail.dropLast, p.2.length = 2 ^ k) :
    Layout k (f.store a c') (l₁ ++ (a, xs') :: l₂) free loose := by
  have hmap : (l₁ ++ (a, xs') :: l₂).map Prod.fst = (l₁ ++ (a, xs) :: l₂).map Prod.fst := by simp
  -- The address occurs once, so the other chunks do not see the write.
  have hnodup := h.nodup
  rw [List.map_append, List.map_cons, List.append_assoc, List.append_assoc] at hnodup
  obtain ⟨-, htail, hdisjoint⟩ := List.nodup_append.mp hnodup
  rw [List.cons_append, List.nodup_cons] at htail
  have hl₁ : a ∉ l₁.map Prod.fst := fun hmem => hdisjoint a hmem a (by simp) rfl
  have hl₂ : a ∉ l₂.map Prod.fst := fun hmem => htail.1 (by simp [hmem])
  have hspare : a ∉ free ++ loose := fun hmem => htail.1 (List.mem_append_right _ hmem)
  have hitems₁ : ItemsIn k f.heap l₁ := fun p hp => h.chunks p (by simp [hp])
  have hitems₂ : ItemsIn k f.heap l₂ := fun p hp => h.chunks p (by simp [hp])
  constructor
  · rw [hmap]
    exact h.linked.update hc hnext
  · rw [hmap]
    exact h.back
  · exact h.freed.update hc hnext
  · rw [hmap]
    exact h.nodup
  · intro b hb
    rw [hmap]
    rcases mem_of_update h.owned b hb with rfl | hmem
    · simp
    · exact hmem
  · exact (hitems₁.frame hl₁ _).append
      (ItemsIn.cons (Function.update_self ..) hc' (hitems₂.frame hl₂ _))
  · exact RoomIn.frame h.spare hspare _
  · have hlen := congrArg List.length hmap
    rw [List.length_map, List.length_map] at hlen
    rw [hlen]
    exact h.nchunks
  · exact h.nfreeChunks
  · exact hmiddle

/-- The first saved chunk is taken in hand. -/
theorem takeFree (h : Layout k f cs (a :: free) loose) : ∃ c, f.heap a = some c ∧
    Layout k { f with freeChunks := c.next, nfreeChunks := f.nfreeChunks - 1 } cs free
      (a :: loose) := by
  obtain ⟨-, c, hc, hrest⟩ := h.freed
  have hperm := perm_free (cs.map Prod.fst) free loose a
  refine ⟨c, hc, h.linked, h.back, hrest, hperm.nodup_iff.mpr h.nodup, ?_, h.chunks, ?_, h.nchunks, ?_,
    h.middle⟩
  · intro b hb
    exact hperm.mem_iff.mpr (h.owned b hb)
  · intro b hb
    exact h.spare b (List.perm_middle.mem_iff.mp hb)
  · rw [h.nfreeChunks]
    rfl

/-- A chunk in hand becomes the first saved one. -/
theorem putFree (h : Layout k f cs free (a :: loose)) (hc : f.heap a = some c)
    (hnext : c.next = f.freeChunks) :
    Layout k { f with freeChunks := some a, nfreeChunks := f.nfreeChunks + 1 } cs (a :: free)
      loose := by
  have hperm := perm_free (cs.map Prod.fst) free loose a
  refine ⟨h.linked, h.back, ⟨rfl, c, hc, ?_⟩, hperm.nodup_iff.mp h.nodup, ?_, h.chunks, ?_, h.nchunks,
    ?_, h.middle⟩
  · show Chain f.heap _ c.next free none
    rw [hnext]
    exact h.freed
  · intro b hb
    exact hperm.mem_iff.mp (h.owned b hb)
  · intro b hb
    exact h.spare b (List.perm_middle.mem_iff.mpr hb)
  · rw [h.nfreeChunks]
    rfl

/-- A new chunk. -/
theorem newChunk (h : Layout k f cs free loose) (ha : f.heap a = none) (next : Option Nat) :
    Layout k (f.store a ⟨List.replicate (2 ^ k) .raw, next, 0, 0⟩) cs free (a :: loose) := by
  -- An address that is not in use is in neither list.
  have hlinked : a ∉ cs.map Prod.fst := by
    intro hmem
    obtain ⟨c, hc⟩ := h.linked.mem_heap hmem
    rw [ha] at hc
    cases hc
  have hspare : a ∉ free ++ loose := by
    intro hmem
    obtain ⟨c, hc, -⟩ := h.spare a hmem
    rw [ha] at hc
    cases hc
  have hfree : a ∉ free := fun hmem => hspare (List.mem_append_left _ hmem)
  have hperm := perm_loose (cs.map Prod.fst) free loose a
  refine ⟨h.linked.frame hlinked _, h.back, h.freed.frame hfree _, ?_, ?_, ItemsIn.frame h.chunks hlinked _,
    ?_, h.nchunks, h.nfreeChunks, h.middle⟩
  · refine hperm.nodup_iff.mpr (List.nodup_cons.mpr ⟨?_, by rw [← List.append_assoc]; exact h.nodup⟩)
    rw [List.mem_append, not_or]
    exact ⟨hlinked, hspare⟩
  · intro b hb
    refine hperm.mem_iff.mpr (List.mem_cons.mpr ?_)
    rw [← List.append_assoc]
    exact mem_of_update h.owned b hb
  · have hlen : (List.replicate (2 ^ k) (Cell.raw : Cell α)).length = 2 ^ k := List.length_replicate
    have hroom := RoomIn.cons (c := ⟨List.replicate (2 ^ k) .raw, next, 0, 0⟩)
      (Function.update_self a _ f.heap) hlen (RoomIn.frame h.spare hspare _)
    intro b hb
    exact hroom b (List.perm_middle.mem_iff.mp hb)

/-- A chunk in hand is written. -/
theorem storeLoose (h : Layout k f cs free (a :: loose)) (c' : Chunk α)
    (hlen : c'.items.length = 2 ^ k) : Layout k (f.store a c') cs free (a :: loose) := by
  have hperm := perm_loose (cs.map Prod.fst) free loose a
  have hnot := (List.nodup_cons.mp (hperm.nodup_iff.mp h.nodup)).1
  rw [List.mem_append, not_or] at hnot
  have hfree : a ∉ free := fun hmem => hnot.2 (List.mem_append_left _ hmem)
  refine ⟨h.linked.frame hnot.1 _, h.back, h.freed.frame hfree _, h.nodup, ?_,
    ItemsIn.frame h.chunks hnot.1 _, ?_, h.nchunks, h.nfreeChunks, h.middle⟩
  · intro b hb
    rcases mem_of_update h.owned b hb with rfl | hmem
    · simp
    · exact hmem
  · have hrest : RoomIn k f.heap (free ++ loose) := fun b hb =>
      h.spare b (List.perm_middle.mem_iff.mpr (List.mem_cons_of_mem _ hb))
    have hroom : RoomIn k (Function.update f.heap a (some c')) (a :: (free ++ loose)) :=
      RoomIn.cons (Function.update_self ..) hlen (hrest.frame hnot.2 _)
    intro b hb
    exact hroom b (List.perm_middle.mem_iff.mp hb)

/-- A chunk in hand is deleted. -/
theorem deleteLoose (h : Layout k f cs free (a :: loose)) : Layout k (f.delete a) cs free loose := by
  have hperm := perm_loose (cs.map Prod.fst) free loose a
  obtain ⟨hnot, hnodup⟩ := List.nodup_cons.mp (hperm.nodup_iff.mp h.nodup)
  rw [List.mem_append, not_or] at hnot
  have hfree : a ∉ free := fun hmem => hnot.2 (List.mem_append_left _ hmem)
  refine ⟨h.linked.frame hnot.1 _, h.back, h.freed.frame hfree _, by rwa [List.append_assoc], ?_,
    ItemsIn.frame h.chunks hnot.1 _, ?_, h.nchunks, h.nfreeChunks, h.middle⟩
  · intro b hb
    have hne : b ≠ a := by
      rintro rfl
      exact hb (Function.update_self ..)
    rcases mem_of_update h.owned b hb with heq | hmem
    · exact absurd heq hne
    · rw [List.append_assoc]
      exact (List.mem_cons.mp (hperm.mem_iff.mp hmem)).resolve_left hne
  · have hrest : RoomIn k f.heap (free ++ loose) := fun b hb =>
      h.spare b (List.perm_middle.mem_iff.mpr (List.mem_cons_of_mem _ hb))
    exact hrest.frame hnot.2 _

/-- The first linked chunk, which is empty now, is taken in hand. -/
theorem unlinkFront (h : Layout k f ((a, []) :: cs) free []) (hc : f.heap a = some c) :
    Layout k { f with
      backChunk := if f.backChunk = f.frontChunk then none else f.backChunk
      frontChunk := c.next
      nchunks := f.nchunks - 1 } cs free [a] := by
  obtain ⟨hfront, d, hd, hrest⟩ := h.linked
  obtain rfl : c = d := Option.some.inj (hc.symm.trans hd)
  have hperm : (cs.map Prod.fst ++ free ++ [a]).Perm
      (((a, []) :: cs).map Prod.fst ++ free ++ []) := by
    have hloose := perm_loose (cs.map Prod.fst) free [] a
    rwa [List.append_nil] at hloose ⊢
  have hnodup := h.nodup
  rw [List.append_nil, List.map_cons, List.cons_append, List.nodup_cons] at hnodup
  refine ⟨hrest, ?_, h.freed, hperm.nodup_iff.mpr h.nodup, ?_, ?_, ?_, ?_, h.nfreeChunks, ?_⟩
  · show (if f.backChunk = f.frontChunk then none else f.backChunk) = (cs.map Prod.fst).getLast?
    have hback := h.back
    rw [List.map_cons] at hback
    cases hcs : cs.map Prod.fst with
    | nil =>
      rw [hcs] at hback
      rw [if_pos (hback.trans hfront.symm)]
      rfl
    | cons b bs =>
      rw [hcs, List.getLast?_cons_cons] at hback
      -- The last address is in the list, and `a` is not.
      rw [if_neg, hback]
      intro heq
      have hmem : a ∈ b :: bs := List.mem_of_getLast? (hback.symm.trans (heq.trans hfront))
      exact hnodup.1 (List.mem_append_left _ (hcs ▸ hmem))
  · intro b hb
    exact hperm.mem_iff.mpr (h.owned b hb)
  · intro p hp
    exact h.chunks p (List.mem_cons_of_mem _ hp)
  · intro b hb
    rcases List.mem_append.mp hb with hb | hb
    · exact h.spare b (List.mem_append_left _ hb)
    · obtain rfl : b = a := by simpa using hb
      obtain ⟨d, hd, hholds⟩ := h.chunks (b, []) (by simp)
      exact ⟨d, hd, hholds.length⟩
  · show f.nchunks - 1 = cs.length
    rw [h.nchunks]
    rfl
  · intro p hp
    refine h.middle p ?_
    rw [← List.tail_dropLast] at hp
    exact List.mem_of_mem_tail hp

end Layout

/-! ### The back -/

/-- The link of a chunk is apart from its items. -/
theorem ChunkHolds.setNext (h : ChunkHolds k c xs) (next : Option Nat) :
    ChunkHolds k { c with next := next } xs := ⟨h.length, h.holds, h.last⟩

/-- The addresses of a layout whose last chunk is `o`. -/
theorem Layout.back_not_mem {init : List (Nat × List α)} {o : Nat} {ys : List α}
    (h : Layout k f (init ++ [(o, ys)]) free loose) :
    o ∉ init.map Prod.fst ∧ o ∉ free ++ loose := by
  have hnodup := h.nodup
  rw [List.map_append, List.append_assoc, List.append_assoc] at hnodup
  obtain ⟨-, htail, hdisjoint⟩ := List.nodup_append.mp hnodup
  exact ⟨fun hmem => hdisjoint o hmem o (by simp) rfl, (List.nodup_cons.mp htail).1⟩

/-- A chunk that is at hand becomes the last one of the queue. -/
theorem linkBack_spec (h : Layout k f cs free [a])
    (hfull : ∀ p ∈ cs.getLast?, p.2.length = 2 ^ k) :
    ∃ f', f.linkBack a = .ok f' ∧ Layout k f' (cs ++ [(a, [])]) free [] := by
  obtain ⟨c, hc, hlen⟩ := h.spare a (by simp)
  have h₁ : Layout k (f.store a ⟨c.items, none, 0, 0⟩) cs free [a] := h.storeLoose _ hlen
  have hself : (f.store a ⟨c.items, none, 0, 0⟩).heap a = some ⟨c.items, none, 0, 0⟩ :=
    Function.update_self ..
  have hperm : ((cs ++ [(a, [])]).map Prod.fst ++ free ++ []).Perm
      (cs.map Prod.fst ++ free ++ [a]) := by
    rw [List.append_nil, List.map_append, List.append_assoc]
    have hfree := perm_free (cs.map Prod.fst) free [] a
    rw [List.append_nil, List.append_assoc] at hfree
    simpa using hfree.symm
  have hspare : RoomIn k f.heap free := fun b hb => h.spare b (List.mem_append_left _ hb)
  have hnot : a ∉ free := by
    intro hmem
    exact (List.nodup_append.mp h.nodup).2.2 a (List.mem_append_right _ hmem) a (by simp) rfl
  rw [linkBack, deref_some hc, ok_bind]
  dsimp only
  rcases List.eq_nil_or_concat cs with rfl | ⟨init, ⟨o, ys⟩, rfl⟩
  · have hback : f.backChunk = none := h.back
    have hfront : f.frontChunk = none := h.linked
    rw [hback]
    refine ⟨_, rfl, ?_⟩
    constructor
    · show Chain _ _ (if f.frontChunk = none then some a else f.frontChunk) [a] none
      rw [if_pos hfront]
      exact ⟨rfl, _, hself, rfl⟩
    · rfl
    · exact h₁.freed
    · exact hperm.nodup_iff.mpr h.nodup
    · intro b hb
      exact hperm.mem_iff.mpr (h₁.owned b hb)
    · exact ItemsIn.cons hself (ChunkHolds.empty hlen none) h₁.chunks
    · rw [List.append_nil]
      exact hspare.frame hnot _
    · show f.nchunks + 1 = 1
      rw [h.nchunks]
      rfl
    · exact h.nfreeChunks
    · simp
  · rw [List.concat_eq_append] at h h₁ hperm hfull ⊢
    have hback : f.backChunk = some o := by
      rw [h.back]
      simp
    obtain ⟨d, hd, hholds⟩ := h₁.chunks (o, ys) (by simp)
    obtain ⟨hinit, hother⟩ := h₁.back_not_mem
    have hoa : o ≠ a := fun heq => hother (by simp [heq])
    rw [hback]
    dsimp only
    rw [deref_some hd, ok_bind]
    refine ⟨_, rfl, ?_⟩
    have hself₂ : Function.update (f.store a ⟨c.items, none, 0, 0⟩).heap o
        (some { d with next := some a }) a = some ⟨c.items, none, 0, 0⟩ := by
      rw [Function.update_of_ne (Ne.symm hoa)]
      exact hself
    have hfront : f.frontChunk ≠ none := by
      intro hnone
      have hhead := h.linked.head_eq
      rw [hnone] at hhead
      simp at hhead
    constructor
    · show Chain _ _ (if f.frontChunk = none then some a else f.frontChunk) _ none
      rw [if_neg hfront, List.map_append]
      have hlinked := h₁.linked
      rw [List.map_append] at hlinked
      have hnodup : (init.map Prod.fst ++ [o]).Nodup := by
        have hsub := (List.nodup_append.mp (List.nodup_append.mp h₁.nodup).1).1
        rwa [List.map_append] at hsub
      have hrelink := hlinked.relink hnodup { d with next := some a }
      rw [List.map_append]
      exact hrelink.append ⟨rfl, _, hself₂, rfl⟩
    · simp
    · exact h₁.freed.frame (fun hmem => hother (List.mem_append_left _ hmem)) _
    · exact hperm.nodup_iff.mpr h.nodup
    · intro b hb
      refine hperm.mem_iff.mpr ?_
      rcases mem_of_update h₁.owned b hb with rfl | hmem
      · simp
      · exact hmem
    · have hitems : ItemsIn k (f.store a ⟨c.items, none, 0, 0⟩).heap init :=
        fun p hp => h₁.chunks p (by simp [hp])
      refine ItemsIn.append ((hitems.frame hinit _).append ?_) ?_
      · exact ItemsIn.cons (Function.update_self ..) (hholds.setNext _) (by simp [ItemsIn])
      · exact ItemsIn.cons hself₂ (ChunkHolds.empty hlen none) (by simp [ItemsIn])
    · rw [List.append_nil]
      have hroom : RoomIn k (f.store a ⟨c.items, none, 0, 0⟩).heap free := hspare.frame hnot _
      exact hroom.frame (fun hmem => hother (List.mem_append_left _ hmem)) _
    · show f.nchunks + 1 = _
      rw [h.nchunks]
      simp
    · exact h.nfreeChunks
    · intro p hp
      rw [tail_dropLast_concat] at hp
      -- The chunk that was the last one is full, and the others were in the middle before.
      have hmiddle := h.middle
      rw [tail_dropLast_concat] at hmiddle
      cases init with
      | nil => simp at hp
      | cons q init =>
        rcases List.mem_append.mp hp with hp | hp
        · exact hmiddle p hp
        · obtain rfl : p = (o, ys) := by simpa using hp
          exact hfull (o, ys) (Option.mem_def.mpr List.getLast?_concat)

/-- While a chunk is saved, the chunk for the back is the first saved one. -/
theorem backChunkNew_saved (env : FifoEnv) (h : Layout k f cs (a :: free) [])
    (hfull : ∀ p ∈ cs.getLast?, p.2.length = 2 ^ k) :
    ∃ f', f.backChunkNew (2 ^ k) env = .ok (f', false) ∧
      Layout k f' (cs ++ [(a, [])]) free [] := by
  have hsome : f.freeChunks = some a := h.freed.1
  obtain ⟨c, hc, htaken⟩ := h.takeFree
  obtain ⟨f', hlink, hlayout⟩ := linkBack_spec htaken hfull
  refine ⟨f', ?_, hlayout⟩
  rw [backChunkNew, hsome]
  dsimp only
  rw [deref_some hc, ok_bind]
  dsimp only
  rw [hlink]
  rfl

/-- From its `i`-th answer on, the allocator gives addresses that are not in use, each of them once. -/
structure AllocatorRight (env : FifoEnv) (f : ChunkedFifo α) (i : Nat) : Prop where
  unused : ∀ n ≥ i, ∀ a, env.alloc n = some a → f.heap a = none
  once : ∀ n ≥ i, ∀ m ≥ i, ∀ a, env.alloc n = some a → env.alloc m = some a → n = m

/-- The call stops because of an allocator that is not right. -/
def StopsInUse (env : FifoEnv) (f : ChunkedFifo α) (i : Nat) (e : Stop) : Prop :=
  e = .addressInUse ∧ ¬AllocatorRight env f i

/-- A chunk for the back comes from the saved ones or from the allocator, which may throw. -/
theorem backChunkNew_spec (env : FifoEnv) (h : Layout k f cs free [])
    (hfull : ∀ p ∈ cs.getLast?, p.2.length = 2 ^ k) :
    Sat (StopsInUse env f 0)
      (fun r => r = (f, true) ∧ env.alloc 0 = none ∨
        r.2 = false ∧ ∃ a free', Layout k r.1 (cs ++ [(a, [])]) free' [])
      (f.backChunkNew (2 ^ k) env) := by
  cases free with
  -- A saved chunk needs no memory.
  | cons a free =>
    obtain ⟨f', hnew, hlayout⟩ := backChunkNew_saved env h hfull
    rw [hnew]
    exact .inr ⟨rfl, a, free, hlayout⟩
  | nil =>
    have hnone : f.freeChunks = none := h.freed
    rw [backChunkNew, hnone]
    dsimp only
    cases halloc : env.alloc 0 with
    | none => exact .inl ⟨rfl, rfl⟩
    | some a =>
      dsimp only
      rw [ChunkedFifo.newChunk]
      cases ha : f.heap a with
      -- The allocator gave an address in use, which a right one does not.
      | some c =>
        refine ⟨rfl, fun hright => ?_⟩
        rw [hright.unused 0 (Nat.le_refl 0) a halloc] at ha
        cases ha
      | none =>
        obtain ⟨f', hlink, hlayout⟩ := linkBack_spec (h.newChunk ha none) hfull
        dsimp only
        rw [ok_bind, hlink]
        exact .inr ⟨rfl, a, [], hlayout⟩

/-- After `ensure_room_back` the last chunk has room: it is the old one, or a new one that is
empty. -/
theorem ensureRoomBack_spec (env : FifoEnv) (hk : k ≤ 30) (h : Layout k f cs free [])
    (hne : ∀ p ∈ cs, p.2 ≠ []) :
    Sat (StopsInUse env f 0)
      (fun r => r = (f, true) ∧ env.alloc 0 = none ∨
        r.2 = false ∧ ∃ init a ys free', Layout k r.1 (init ++ [(a, ys)]) free' [] ∧
          ys.length < 2 ^ k ∧ (ys ≠ [] ∧ init ++ [(a, ys)] = cs ∨ ys = [] ∧ init = cs))
      (f.ensureRoomBack (2 ^ k) env) := by
  have hnew : (∀ p ∈ cs.getLast?, p.2.length = 2 ^ k) →
      Sat (StopsInUse env f 0)
        (fun r => r = (f, true) ∧ env.alloc 0 = none ∨
          r.2 = false ∧ ∃ init a ys free', Layout k r.1 (init ++ [(a, ys)]) free' [] ∧
            ys.length < 2 ^ k ∧ (ys ≠ [] ∧ init ++ [(a, ys)] = cs ∨ ys = [] ∧ init = cs))
        (f.backChunkNew (2 ^ k) env) := by
    intro hfull
    refine (backChunkNew_spec env h hfull).mono fun r hr => ?_
    rcases hr with hr | ⟨hr, a, free', hlayout⟩
    · exact .inl hr
    · exact .inr ⟨hr, cs, a, [], free', hlayout, Nat.two_pow_pos k, .inr ⟨rfl, rfl⟩⟩
  rw [ensureRoomBack]
  rcases List.eq_nil_or_concat cs with rfl | ⟨init, ⟨o, ys⟩, rfl⟩
  · -- An empty queue has no chunk yet.
    have hback : f.backChunk = none := h.back
    rw [if_pos hback]
    exact hnew (by simp)
  · rw [List.concat_eq_append] at h hne hnew ⊢
    have hback : f.backChunk = some o := by
      rw [h.back]
      simp
    obtain ⟨d, hd, hholds⟩ := h.chunks (o, ys) (by simp)
    rw [hback, if_neg (by simp), deref_some hd, ok_bind]
    dsimp only
    rw [hholds.size_eq hk]
    -- Otherwise the last chunk decides: a new one is linked behind it when it is full.
    by_cases hfull : ys.length = 2 ^ k
    · rw [if_pos hfull]
      refine hnew fun p hp => ?_
      rw [List.getLast?_concat] at hp
      obtain rfl : (o, ys) = p := Option.some.inj hp
      exact hfull
    · rw [if_neg hfull]
      have hle := hholds.length_le
      exact .inr ⟨rfl, init, o, ys, free, h, Nat.lt_of_le_of_ne hle hfull,
        .inl ⟨hne (o, ys) (by simp), rfl⟩⟩

/-- The walk finds the last chunk before the one that was removed. -/
theorem findPrevious_spec {old b : Nat} {as : List Nat} {p : Option Nat}
    (h : Chain f.heap (·.next) p (as ++ [b]) (some old)) (hold : old ∉ as ++ [b]) :
    ∃ c, f.heap b = some c ∧ f.findPrevious old (as.length + 1) p = .ok (b, c) := by
  induction as generalizing p with
  | nil =>
    obtain ⟨rfl, c, hc, hlast⟩ := h
    have hnext : c.next = some old := hlast
    refine ⟨c, hc, ?_⟩
    rw [List.length_nil, findPrevious, deref_some hc, ok_bind]
    dsimp only
    rw [if_pos hnext]
    rfl
  | cons a as ih =>
    obtain ⟨rfl, c, hc, hrest⟩ := h
    obtain ⟨d, hd, hfind⟩ := ih hrest (fun hmem => hold (List.mem_cons_of_mem _ hmem))
    have hne : c.next ≠ some old := by
      intro hnext
      -- The next address is the head of the rest of the chain, so it is not `old`.
      cases as with
      | nil =>
        obtain rfl : old = b := Option.some.inj (hnext.symm.trans hrest.1)
        exact hold (by simp)
      | cons a' as =>
        obtain rfl : old = a' := Option.some.inj (hnext.symm.trans hrest.1)
        exact hold (by simp)
    refine ⟨d, hd, ?_⟩
    rw [List.length_cons, findPrevious, deref_some hc, ok_bind]
    dsimp only
    rw [if_neg hne]
    exact hfind

/-- The last chunk of the queue is freed. -/
theorem removeBack_spec {init : List (Nat × List α)} {ys : List α}
    (h : Layout k f (init ++ [(a, ys)]) free []) :
    ∃ f', f.removeBack a = .ok f' ∧ Layout k f' init free [] := by
  obtain ⟨hinit, hother⟩ := h.back_not_mem
  rw [List.append_nil] at hother
  have hnodup := h.nodup
  rw [List.append_nil, List.map_append, List.append_assoc] at hnodup
  have hkept : (init.map Prod.fst ++ free ++ []).Nodup := by
    rw [List.append_nil]
    exact hnodup.sublist ((List.sublist_append_right _ _).append_left _)
  have hitems : ItemsIn k (f.delete a).heap init :=
    ItemsIn.frame (fun p hp => h.chunks p (by simp [hp])) hinit _
  have hspare : RoomIn k (f.delete a).heap free :=
    RoomIn.frame (fun b hb => h.spare b (List.mem_append_left _ hb)) hother _
  have howned : ∀ b, (f.delete a).heap b ≠ none → b ∈ init.map Prod.fst ++ free ++ [] := by
    intro b hb
    have hne : b ≠ a := by
      rintro rfl
      exact hb (Function.update_self ..)
    have hmem := (mem_of_update h.owned b hb).resolve_left hne
    simpa [hne] using hmem
  have hcount : f.nchunks - 1 = init.length := by
    rw [h.nchunks, List.length_append]
    rfl
  -- The chain up to the chunk that goes.
  have hlinked := h.linked
  rw [List.map_append] at hlinked
  obtain ⟨q, hbefore, hq, -⟩ := hlinked.of_append
  subst hq
  have hframe := hbefore.frame hinit none
  rw [removeBack]
  dsimp only
  rw [hcount]
  rcases List.eq_nil_or_concat init with rfl | ⟨init, ⟨b, zs⟩, rfl⟩
  · rw [if_pos List.length_nil]
    exact ⟨_, rfl, rfl, rfl, h.freed.frame hother _, hkept, howned, hitems,
      by rw [List.append_nil]; exact hspare, rfl,
      h.nfreeChunks, by simp⟩
  · rw [List.concat_eq_append] at *
    rw [if_neg (by simp)]
    rw [List.map_append] at hframe
    rw [List.map_append] at hinit
    obtain ⟨c, hc, hfind⟩ := findPrevious_spec
      (f := { f.delete a with nchunks := (init ++ [(b, zs)]).length }) hframe hinit
    have hlen : (init.map Prod.fst).length + 1 = (init ++ [(b, zs)]).length := by simp
    have hfind' : ChunkedFifo.findPrevious { f.delete a with nchunks := (init ++ [(b, zs)]).length } a
        (init ++ [(b, zs)]).length (f.delete a).frontChunk = .ok (b, c) := hlen ▸ hfind
    dsimp only at hfind'
    rw [hfind', ok_bind]
    have hkept' := hkept
    rw [List.append_nil, List.map_append, List.append_assoc] at hkept'
    obtain ⟨hfirst, hsecond, hdisjoint⟩ := List.nodup_append.mp hkept'
    have hbinit : b ∉ init.map Prod.fst := fun hmem => hdisjoint b hmem b (by simp) rfl
    have hbfree : b ∉ free := (List.nodup_cons.mp hsecond).1
    have hbnodup : (init.map Prod.fst ++ [b]).Nodup :=
      hkept'.sublist ((List.sublist_append_left [b] free).append_left _)
    obtain ⟨d, hd, hdholds⟩ := hitems (b, zs) (by simp)
    obtain rfl : c = d := Option.some.inj (hc.symm.trans hd)
    refine ⟨_, rfl, ?_, by simp, ?_, hkept, ?_, ?_, ?_, ?_, h.nfreeChunks, ?_⟩
    · rw [List.map_append]
      exact hframe.relink hbnodup { c with next := none }
    · exact (h.freed.frame hother _).frame hbfree _
    · intro b' hb'
      rcases mem_of_update howned b' hb' with rfl | hmem
      · simp
      · exact hmem
    · have hinner : ItemsIn k (f.delete a).heap init := fun p hp => hitems p (by simp [hp])
      refine (hinner.frame hbinit _).append ?_
      exact ItemsIn.cons (Function.update_self ..) (hdholds.setNext none) (by simp [ItemsIn])
    · rw [List.append_nil]
      exact hspare.frame hbfree _
    · rfl
    · intro p hp
      refine h.middle p ?_
      rw [tail_dropLast_concat]
      exact List.dropLast_subset _ hp

/-- `undo_room_back` removes the chunk that `ensure_room_back` added, if it did. -/
theorem undoRoomBack_spec {init : List (Nat × List α)} {ys : List α} (hk : k ≤ 30)
    (h : Layout k f (init ++ [(a, ys)]) free []) :
    ∃ f', f.undoRoomBack = .ok f' ∧
      Layout k f' (if ys = [] then init else init ++ [(a, ys)]) free [] := by
  have hback : f.backChunk = some a := by
    rw [h.back]
    simp
  obtain ⟨c, hc, hholds⟩ := h.chunks (a, ys) (by simp)
  rw [undoRoomBack, hback, deref_some hc, ok_bind]
  dsimp only
  by_cases hempty : ys = []
  · rw [if_pos ((hholds.first_eq_last hk).mpr hempty), if_pos hempty]
    exact removeBack_spec h
  · rw [if_neg (fun heq => hempty ((hholds.first_eq_last hk).mp heq)), if_neg hempty]
    exact ⟨f, rfl, h⟩

/-- The write of `push_back` into the last chunk. -/
theorem Layout.writeBack {init : List (Nat × List α)} {ys : List α} (hk : k ≤ 30)
    (h : Layout k f (init ++ [(a, ys)]) free []) (hlt : ys.length < 2 ^ k) (hc : f.heap a = some c)
    (x : α) :
    Layout k (f.store a { c with
        items := c.items.set (mask (2 ^ k) c.last) (.live x)
        last := c.last + 1 }) (init ++ [(a, ys ++ [x])]) free [] := by
  obtain ⟨d, hd, hholds⟩ := h.chunks (a, ys) (by simp)
  obtain rfl : c = d := Option.some.inj (hc.symm.trans hd)
  refine h.modify hc (hholds.push hk hlt x) rfl ?_
  have hmiddle := h.middle
  rw [tail_dropLast_concat] at hmiddle ⊢
  exact hmiddle

/-- What makes a call throw: the allocator, or the constructor of the element. -/
def MayThrow (env : FifoEnv) : Call α → Prop
  | .pushBack _ => env.alloc 0 = none ∨ env.ctorThrows = true
  | .reserve _ => ∃ n, env.alloc n = none
  | .popFront | .shrinkToFit | .clear => False

/-- A push adds the element, or it throws and the queue stays as it is. -/
theorem pushBack_spec (env : FifoEnv) (hk : k ≤ 30) (h : Rep k f xs) (x : α) :
    Sat (StopsInUse env f 0)
      (fun r => Rep k r.1 (if r.2 then xs else xs ++ [x]) ∧ (r.2 = true → MayThrow env (.pushBack x)))
      (f.pushBack (2 ^ k) env x) := by
  obtain ⟨cs, free, hlayout, hne, rfl⟩ := h
  rw [ChunkedFifo.pushBack]
  refine (ensureRoomBack_spec env hk hlayout hne).bind fun r hr => ?_
  obtain ⟨f', threw⟩ := r
  rcases hr with ⟨hr, halloc⟩ | ⟨hr, init, a, ys, free', hroom, hlt, hcases⟩
  · cases hr
    exact ⟨⟨cs, free, hlayout, hne, rfl⟩, fun _ => .inl halloc⟩
  · obtain rfl : threw = false := hr
    -- The chunk that was linked for the element, if any, is empty.
    have hcontents : (init ++ [(a, ys)]).flatMap Prod.snd = cs.flatMap Prod.snd := by
      rcases hcases with ⟨-, rfl⟩ | ⟨rfl, rfl⟩
      · rfl
      · simp
    dsimp only
    rw [if_neg (by decide)]
    by_cases hthrows : env.ctorThrows = true
    · -- The constructor throws: a chunk that was linked for the element goes to the saved ones.
      rw [if_pos hthrows]
      obtain ⟨f'', hundo, hback⟩ := undoRoomBack_spec hk hroom
      have hcs : (if ys = [] then init else init ++ [(a, ys)]) = cs := by
        rcases hcases with ⟨hys, hcs⟩ | ⟨hys, hcs⟩
        · rw [if_neg hys, hcs]
        · rw [if_pos hys, hcs]
      rw [hcs] at hback
      rw [hundo]
      exact ⟨⟨cs, free', hback, hne, rfl⟩, fun _ => .inr hthrows⟩
    · rw [if_neg hthrows]
      have hback : f'.backChunk = some a := by
        rw [hroom.back]
        simp
      obtain ⟨c, hc, -⟩ := hroom.chunks (a, ys) (by simp)
      rw [hback, deref_some hc, ok_bind]
      refine ⟨⟨_, free', hroom.writeBack hk hlt hc x, ?_, ?_⟩, fun hfalse => by cases hfalse⟩
      · intro p hp
        rcases List.mem_append.mp hp with hp | hp
        · refine hne p ?_
          rcases hcases with ⟨-, rfl⟩ | ⟨-, rfl⟩
          · exact List.mem_append_left _ hp
          · exact hp
        · obtain rfl : p = (a, ys ++ [x]) := by simpa using hp
          simp
      · -- The element is the last one of the last chunk.
        show (init ++ [(a, ys ++ [x])]).flatMap Prod.snd = cs.flatMap Prod.snd ++ [x]
        rw [← hcontents]
        simp

/-! ### The front -/

/-- The empty chunk at the front is saved when no chunk is, and deleted otherwise. -/
theorem frontChunkDelete_spec (h : Layout k f ((a, []) :: cs) free []) :
    ∃ f', f.frontChunkDelete = .ok f' ∧ Layout k f' cs (if free = [] then [a] else free) [] := by
  have hfront : f.frontChunk = some a := h.linked.1
  obtain ⟨c, hc, hholds⟩ := h.chunks (a, []) (by simp)
  have hunlink := h.unlinkFront hc
  rw [frontChunkDelete, hfront, deref_some hc, ok_bind]
  dsimp only
  have hcount : f.nfreeChunks < 1 ↔ free = [] := by
    rw [h.nfreeChunks, Nat.lt_one_iff, List.length_eq_zero_iff]
  by_cases hsave : free = []
  · rw [if_pos (hcount.mpr hsave), if_pos hsave]
    subst hsave
    have hstore := hunlink.storeLoose { c with next := f.freeChunks } hholds.length
    exact ⟨_, rfl, hstore.putFree (Function.update_self ..) rfl⟩
  · rw [if_neg (mt hcount.mp hsave), if_neg hsave]
    exact ⟨_, rfl, hunlink.deleteLoose⟩

/-- The chunks after `pop_front`. -/
theorem popFront_layout {x : α} {ys : List α} (hk : k ≤ 30)
    (h : Layout k f ((a, x :: ys) :: cs) free []) :
    ∃ f', f.popFront (2 ^ k) = .ok f' ∧
      if ys = [] then Layout k f' cs (if free = [] then [a] else free) []
      else Layout k f' ((a, ys) :: cs) free [] := by
  have hfront : f.frontChunk = some a := h.linked.1
  obtain ⟨c, hc, hholds⟩ := h.chunks (a, x :: ys) (by simp)
  have hpop := hholds.pop hk
  have hfirst : Layout k f ([] ++ (a, x :: ys) :: cs) free [] := h
  have hmodify := hfirst.modify hc hpop rfl h.middle
  rw [ChunkedFifo.popFront, hfront, deref_some hc, ok_bind]
  dsimp only
  by_cases hempty : ys = []
  · rw [if_pos ((hpop.first_eq_last hk).mpr hempty)]
    subst hempty
    obtain ⟨f', hdelete, hlayout⟩ := frontChunkDelete_spec hmodify
    exact ⟨f', hdelete, by rwa [if_pos rfl]⟩
  · rw [if_neg (fun heq => hempty ((hpop.first_eq_last hk).mp heq))]
    exact ⟨_, rfl, by rwa [if_neg hempty]⟩

/-- A queue with an item has it in front of its first chunk. -/
theorem exists_front {x : α} (hne : ∀ p ∈ cs, p.2 ≠ []) (hcontents : cs.flatMap Prod.snd = x :: xs) :
    ∃ a ys cs', cs = (a, x :: ys) :: cs' ∧ ys ++ cs'.flatMap Prod.snd = xs := by
  cases cs with
  | nil => simp at hcontents
  | cons p cs =>
    obtain ⟨a, ys⟩ := p
    obtain ⟨y, ys, rfl⟩ := List.exists_cons_of_ne_nil (hne (a, ys) (by simp))
    obtain ⟨rfl, hrest⟩ : y = x ∧ ys ++ cs.flatMap Prod.snd = xs := by simpa using hcontents
    exact ⟨a, ys, cs, rfl, hrest⟩

/-- A pop removes the front, and its chunk when it was the last one there. -/
theorem popFront_spec {x : α} (hk : k ≤ 30) (h : Rep k f (x :: xs)) :
    ∃ f', f.popFront (2 ^ k) = .ok f' ∧ Rep k f' xs := by
  obtain ⟨cs, free, hlayout, hne, hcontents⟩ := h
  obtain ⟨a, ys, cs, rfl, hrest⟩ := exists_front hne hcontents
  obtain ⟨f', hpop, hlayout'⟩ := popFront_layout hk hlayout
  have hne' : ∀ p ∈ cs, p.2 ≠ [] := fun p hp => hne p (List.mem_cons_of_mem _ hp)
  refine ⟨f', hpop, ?_⟩
  by_cases hempty : ys = []
  · rw [if_pos hempty] at hlayout'
    subst hempty
    exact ⟨cs, _, hlayout', hne', hrest⟩
  · rw [if_neg hempty] at hlayout'
    refine ⟨_, free, hlayout', fun p hp => ?_, hrest⟩
    rcases List.mem_cons.mp hp with rfl | hp
    · exact hempty
    · exact hne' p hp

/-! ### Size and ends -/

/-- `empty` tells whether the queue has elements. -/
theorem Rep.empty_iff (h : Rep k f xs) : f.empty = true ↔ xs = [] := by
  obtain ⟨cs, free, hlayout, hne, rfl⟩ := h
  have hhead := hlayout.linked.head_eq
  cases cs with
  | nil => simp [ChunkedFifo.empty, hhead]
  | cons p cs =>
    have hp : p.2 ≠ [] := hne p (by simp)
    simp [ChunkedFifo.empty, hhead, hp]

/-- `front` is the first element. -/
theorem Rep.front_eq (h : Rep k f xs) (hxs : xs ≠ []) :
    f.front (2 ^ k) = .ok (xs.head?.map .live) := by
  obtain ⟨cs, free, hlayout, hne, rfl⟩ := h
  cases cs with
  | nil => simp at hxs
  | cons p cs =>
    have hp : p.2 ≠ [] := hne p (by simp)
    obtain ⟨c, hc, hholds⟩ := hlayout.chunks p (by simp)
    have hfront : f.frontChunk = some p.1 := hlayout.linked.1
    rw [ChunkedFifo.front, hfront, deref_some hc, ok_bind]
    dsimp only
    rw [hholds.front_eq hp, List.flatMap_cons, List.head?_append_of_ne_nil _ hp]
    rfl

/-- `back` is the last element. -/
theorem Rep.back_eq (hk : k ≤ 30) (h : Rep k f xs) (hxs : xs ≠ []) :
    f.back (2 ^ k) = .ok (xs.getLast?.map .live) := by
  obtain ⟨cs, free, hlayout, hne, rfl⟩ := h
  rcases List.eq_nil_or_concat cs with rfl | ⟨init, p, rfl⟩
  · simp at hxs
  · rw [List.concat_eq_append] at hlayout hne ⊢
    have hp : p.2 ≠ [] := hne p (by simp)
    obtain ⟨c, hc, hholds⟩ := hlayout.chunks p (by simp)
    have hback : f.backChunk = some p.1 := by
      rw [hlayout.back]
      simp
    rw [ChunkedFifo.back, hback, deref_some hc, ok_bind]
    dsimp only
    rw [hholds.back_eq hk hp, List.flatMap_append, List.flatMap_singleton,
      List.getLast?_append_of_ne_nil _ hp]
    rfl

/-- The elements of full chunks. -/
theorem length_flatMap_full {mid : List (Nat × List α)} (h : ∀ p ∈ mid, p.2.length = 2 ^ k) :
    (mid.flatMap Prod.snd).length = mid.length * 2 ^ k := by
  induction mid with
  | nil => simp
  | cons p mid ih =>
    rw [List.flatMap_cons, List.length_append, h p (by simp),
      ih fun q hq => h q (List.mem_cons_of_mem _ hq), List.length_cons, Nat.succ_mul, Nat.add_comm]

/-- `size` is right because the chunks that it does not look at are full. -/
theorem Rep.size_eq (hk : k ≤ 30) (h : Rep k f xs) : f.size (2 ^ k) = .ok xs.length := by
  obtain ⟨cs, free, hlayout, hne, rfl⟩ := h
  rw [ChunkedFifo.size]
  cases cs with
  | nil =>
    have hfront : f.frontChunk = none := hlayout.linked
    rw [if_pos hfront]
    rfl
  | cons p cs =>
    obtain ⟨a, ys⟩ := p
    have hfront : f.frontChunk = some a := hlayout.linked.1
    obtain ⟨c, hc, hholds⟩ := hlayout.chunks (a, ys) (by simp)
    rw [hfront, if_neg (by simp), deref_some hc, ok_bind]
    dsimp only
    rcases List.eq_nil_or_concat cs with rfl | ⟨mid, ⟨b, zs⟩, rfl⟩
    · have hback : f.backChunk = some a := hlayout.back
      rw [if_pos hback, hholds.size_eq hk]
      simp
      rfl
    · rw [List.concat_eq_append] at hlayout ⊢
      have hback : f.backChunk = some b := by
        rw [hlayout.back, List.map_cons, List.map_append, ← List.cons_append]
        exact List.getLast?_concat
      have hba : f.backChunk ≠ some a := by
        rw [hback]
        rintro ⟨⟩
        have hnodup := (List.nodup_append.mp (List.nodup_append.mp hlayout.nodup).1).1
        rw [List.map_cons, List.nodup_cons] at hnodup
        exact hnodup.1 (by simp)
      obtain ⟨d, hd, hholds'⟩ := hlayout.chunks (b, zs) (by simp)
      have hmid : ∀ p ∈ mid, p.2.length = 2 ^ k := by
        intro p hp
        refine hlayout.middle p ?_
        rw [← List.cons_append, tail_dropLast_concat]
        exact hp
      have hys : ys.length ≤ 2 ^ k := hholds.length_le
      have hzs : zs.length ≤ 2 ^ k := hholds'.length_le
      have hpow := two_pow_le hk
      -- The sum of the two ends fits 32 bits.
      have hsum : (c.last - c.first + d.last - d.first).toNat = ys.length + zs.length := by
        rw [show c.last - c.first + d.last - d.first = (c.last - c.first) + (d.last - d.first) by grind,
          UInt32.toNat_add, hholds.size_eq hk, hholds'.size_eq hk]
        exact Nat.mod_eq_of_lt (by show ys.length + zs.length < 2 ^ 32; omega)
      rw [if_neg hba, hback, deref_some hd, ok_bind]
      dsimp only
      rw [hsum, hlayout.nchunks]
      show Except.ok _ = Except.ok _
      congr 1
      rw [List.flatMap_cons, List.flatMap_append, List.flatMap_singleton, List.length_append,
        List.length_append, length_flatMap_full hmid, List.length_cons, List.length_append,
        List.length_singleton]
      show ys.length + zs.length + (mid.length + 1 + 1 - 2) * 2 ^ k = _
      rw [show mid.length + 1 + 1 - 2 = mid.length by omega]
      show _ = ys.length + (mid.length * 2 ^ k + zs.length)
      omega

/-- The loop of `clear` pops until nothing is left. -/
theorem clearLoop_spec (hk : k ≤ 30) {bound : Nat} (h : Rep k f xs) (hbound : xs.length ≤ bound) :
    ∃ f', f.clearLoop (2 ^ k) bound = .ok f' ∧ Rep k f' [] := by
  induction bound generalizing f xs with
  | zero =>
    obtain rfl : xs = [] := List.length_eq_zero_iff.mp (Nat.le_zero.mp hbound)
    exact ⟨f, if_pos (h.empty_iff.mpr rfl), h⟩
  | succ bound ih =>
    cases xs with
    | nil => exact ⟨f, if_pos (h.empty_iff.mpr rfl), h⟩
    | cons x xs =>
      have hempty : ¬ f.empty = true := fun he => by simpa using h.empty_iff.mp he
      obtain ⟨f₁, hpop, hrep⟩ := popFront_spec hk h
      obtain ⟨f', hloop, hnil⟩ := ih hrep (Nat.le_of_succ_le_succ hbound)
      refine ⟨f', ?_, hnil⟩
      rw [clearLoop, if_neg hempty, hpop]
      exact hloop

/-- `clear` leaves an empty queue. -/
theorem clear_spec (hk : k ≤ 30) (h : Rep k f xs) :
    ∃ f', f.clear (2 ^ k) = .ok f' ∧ Rep k f' [] := by
  obtain ⟨f', hloop, hnil⟩ := clearLoop_spec hk h (Nat.le_refl _)
  exact ⟨f', by rw [clear, h.size_eq hk]; exact hloop, hnil⟩

/-! ### Saved chunks -/

/-- The loop does not touch the counter of the saved chunks, so any value may stand there. -/
theorem shrinkLoop_spec {bound : Nat} (h : Layout k { f with nfreeChunks := free.length } cs free [])
    (hbound : free.length ≤ bound) :
    ∃ f', f.shrinkLoop bound = .ok f' ∧ Layout k { f' with nfreeChunks := 0 } cs [] [] := by
  induction bound generalizing f free with
  | zero =>
    obtain rfl : free = [] := List.length_eq_zero_iff.mp (Nat.le_zero.mp hbound)
    exact ⟨f, if_pos h.freed, h⟩
  | succ bound ih =>
    cases free with
    | nil => exact ⟨f, if_pos h.freed, h⟩
    | cons a free =>
      have hsome : f.freeChunks = some a := h.freed.1
      obtain ⟨c, hc, htaken⟩ := h.takeFree
      have hc' : f.heap a = some c := hc
      obtain ⟨f', hloop, hlayout⟩ := ih (f := { f.delete a with freeChunks := c.next })
        htaken.deleteLoose (Nat.le_of_succ_le_succ hbound)
      refine ⟨f', ?_, hlayout⟩
      rw [shrinkLoop, hsome, if_neg (by simp), deref_some hc', ok_bind]
      exact hloop

/-- `shrink_to_fit` frees chunks that hold nothing. -/
theorem shrinkToFit_spec (h : Rep k f xs) : ∃ f', f.shrinkToFit = .ok f' ∧ Rep k f' xs := by
  obtain ⟨cs, free, hlayout, hne, rfl⟩ := h
  have hsame : { f with nfreeChunks := free.length } = f := by rw [← hlayout.nfreeChunks]
  obtain ⟨f', hloop, hlayout'⟩ := shrinkLoop_spec (hsame.symm ▸ hlayout) (Nat.le_refl free.length)
  refine ⟨{ f' with nfreeChunks := 0 }, ?_, cs, [], hlayout', hne, rfl⟩
  rw [shrinkToFit, hlayout.nfreeChunks, hloop]
  rfl

/-- The address that was just given is in use from now on, and the allocator does not give it again. -/
theorem AllocatorRight.next {env : FifoEnv} {g : ChunkedFifo α} {i a : Nat} {c : Option (Chunk α)}
    (h : AllocatorRight env f i) (ha : env.alloc i = some a)
    (hg : g.heap = Function.update f.heap a c) : AllocatorRight env g (i + 1) where
  unused n hn b hb := by
    have hne : b ≠ a := by
      rintro rfl
      have hsame := h.once n (by omega) i (Nat.le_refl i) b hb ha
      omega
    rw [hg, Function.update_of_ne hne]
    exact h.unused n (by omega) b hb
  once n hn m hm := h.once n (by omega) m (by omega)

/-- The loop of `reserve` adds free chunks until memory runs out. -/
theorem reserveLoop_spec (env : FifoEnv) {needed i : Nat} (h : Rep k f xs) :
    Sat (StopsInUse env f i) (fun r => Rep k r.1 xs ∧ (r.2 = true → ∃ n, env.alloc n = none))
      (f.reserveLoop (2 ^ k) env i needed) := by
  induction needed generalizing f i with
  | zero => exact ⟨h, fun hfalse => by cases hfalse⟩
  | succ needed ih =>
    rw [reserveLoop]
    cases halloc : env.alloc i with
    | none => exact ⟨h, fun _ => ⟨i, halloc⟩⟩
    | some a =>
      dsimp only
      rw [ChunkedFifo.newChunk]
      cases ha : f.heap a with
      | some c =>
        refine ⟨rfl, fun hright => ?_⟩
        rw [hright.unused i (Nat.le_refl i) a halloc] at ha
        cases ha
      | none =>
        dsimp only
        rw [ok_bind]
        obtain ⟨cs, free, hlayout, hne, hcontents⟩ := h
        have hnew := (hlayout.newChunk ha f.freeChunks).putFree (Function.update_self ..) rfl
        refine (ih ⟨cs, a :: free, hnew, hne, hcontents⟩).mono_error fun e he => ?_
        exact ⟨he.1, fun hright => he.2 (hright.next halloc rfl)⟩

/-- What `reserve` reads is there. -/
theorem needBeyondBack_ok (h : Rep k f xs) (n : UInt64) :
    ∃ need, f.needBeyondBack (2 ^ k) n = .ok need := by
  obtain ⟨cs, free, hlayout, -, -⟩ := h
  rw [needBeyondBack]
  rcases List.eq_nil_or_concat cs with rfl | ⟨init, p, rfl⟩
  · have hback : f.backChunk = none := hlayout.back
    exact ⟨n, if_pos hback⟩
  · rw [List.concat_eq_append] at hlayout
    obtain ⟨c, hc, -⟩ := hlayout.chunks p (by simp)
    have hback : f.backChunk = some p.1 := by
      rw [hlayout.back]
      simp
    rw [hback, if_neg (by simp), deref_some hc]
    exact ⟨_, rfl⟩

/-- `reserve` adds saved chunks, as many as the allocator gives. -/
theorem reserve_spec (env : FifoEnv) (hk : k ≤ 30) (n : UInt64) (h : Rep k f xs) :
    Sat (StopsInUse env f 0) (fun r => Rep k r.1 xs ∧ (r.2 = true → ∃ n, env.alloc n = none))
      (f.reserve (2 ^ k) env n) := by
  obtain ⟨need, hneed⟩ := needBeyondBack_ok h (n - UInt64.ofNat xs.length)
  rw [reserve, h.size_eq hk, ok_bind, hneed, ok_bind]
  dsimp only
  split
  · exact ⟨h, fun hfalse => by cases hfalse⟩
  · exact reserveLoop_spec env h

/-! ### Runs -/

/-- What a user sees, and what the fields say, for a queue with the items `xs`. -/
structure Agrees (k : Nat) (f : ChunkedFifo α) (xs : List α) : Prop where
  /-- The chunks hold the items in order, the middle ones are full, no chunk is in both lists, and
  the counters count. -/
  layout : ∃ cs free, Layout k f cs free [] ∧ cs.flatMap Prod.snd = xs
  size : f.size (2 ^ k) = .ok xs.length
  empty : f.empty = true ↔ xs = []
  front : xs ≠ [] → f.front (2 ^ k) = .ok (xs.head?.map .live)
  back : xs ≠ [] → f.back (2 ^ k) = .ok (xs.getLast?.map .live)

/-- The accessors answer as those of the list do. -/
theorem Rep.agrees (hk : k ≤ 30) (h : Rep k f xs) : Agrees k f xs where
  layout := by
    obtain ⟨cs, free, hlayout, -, hcontents⟩ := h
    exact ⟨cs, free, hlayout, hcontents⟩
  size := h.size_eq hk
  empty := h.empty_iff
  front := h.front_eq
  back := h.back_eq hk

/-- No call went wrong, and every queue is the list beside it. -/
def Refines (k : Nat) (s : Session α) : Prop :=
  s.fault = false ∧ ∀ i, Agrees k (s.fifos i) (s.lists i)

/-- With an allocator that is right, each allowed call on a queue returns, and it throws only when the
allocator or the constructor of the element does. -/
def Answers (k : Nat) (s : Session α) : Prop :=
  ∀ i env c, Allowed (s.lists i) c → AllocatorRight env (s.fifos i) 0 →
    ∃ r, fifoCall (2 ^ k) env (s.fifos i) c = .ok r ∧ (r.2 = true → MayThrow env c)

/-- The invariant of a session. -/
def Inv (k : Nat) (s : Session α) : Prop := s.fault = false ∧ ∀ i, Rep k (s.fifos i) (s.lists i)

/-- A new queue is empty. -/
theorem Rep.create : Rep k (ChunkedFifo.create : ChunkedFifo α) [] :=
  ⟨[], [], Layout.create, by simp, rfl⟩

/-- Every call does what its list operation does, or it throws for a reason and changes nothing. -/
theorem fifoCall_spec (env : FifoEnv) (hk : k ≤ 30) (h : Rep k f xs) {c : Call α}
    (hallowed : Allowed xs c) :
    Sat (StopsInUse env f 0)
      (fun r => Rep k r.1 (if r.2 then xs else listCall xs c) ∧ (r.2 = true → MayThrow env c))
      (fifoCall (2 ^ k) env f c) := by
  cases c with
  | pushBack x => exact pushBack_spec env hk h x
  | popFront =>
    obtain ⟨x, xs, rfl⟩ := List.exists_cons_of_ne_nil hallowed
    obtain ⟨f', hcall, hrep⟩ := popFront_spec hk h
    rw [fifoCall, hcall]
    exact ⟨hrep, fun hfalse => by cases hfalse⟩
  | reserve n =>
    refine (reserve_spec env hk n h).mono fun r hr => ⟨?_, hr.2⟩
    cases r.2 with
    | true => exact hr.1
    | false => exact hr.1
  | shrinkToFit =>
    obtain ⟨f', hcall, hrep⟩ := shrinkToFit_spec h
    rw [fifoCall, hcall]
    exact ⟨hrep, fun hfalse => by cases hfalse⟩
  | clear =>
    obtain ⟨f', hcall, hrep⟩ := clear_spec hk h
    rw [fifoCall, hcall]
    exact ⟨hrep, fun hfalse => by cases hfalse⟩

/-- A call on one queue leaves the others as they are. -/
theorem Inv.update {s : Session α} (h : Inv k s) {i : Nat} (hrep : Rep k f xs) (j : Nat) :
    Rep k (Function.update s.fifos i f j) (Function.update s.lists i xs j) := by
  by_cases heq : j = i
  · subst heq
    rw [Function.update_self, Function.update_self]
    exact hrep
  · rw [Function.update_of_ne heq, Function.update_of_ne heq]
    exact h.2 j

/-- A call keeps the invariant of the queues. -/
theorem Inv.call {s t : Session α} {env : FifoEnv} {i : Nat} {c : Call α} (hk : k ≤ 30) (h : Inv k s)
    (hstep : s.step (2 ^ k) (.call env i c) = some t) : Inv k t := by
  rw [Session.step, if_neg (by simp [h.1])] at hstep
  split at hstep
  · rename_i hallowed
    rcases (fifoCall_spec env hk (h.2 i) hallowed).cases with
      ⟨e, hcall, rfl, -⟩ | ⟨⟨f, threw⟩, hcall, hrep, -⟩
    · rw [hcall] at hstep
      cases hstep
    · rw [hcall] at hstep
      cases hstep
      refine ⟨h.1, fun j => ?_⟩
      have hupdate := h.update hrep (i := i) j
      cases threw with
      | false => exact hupdate
      | true => rwa [if_pos rfl, Function.update_eq_self] at hupdate
  · cases hstep

/-- A move takes the elements along. -/
theorem Inv.move {s t : Session α} {i j : Nat} (h : Inv k s)
    (hstep : s.step (2 ^ k) (.move i j) = some t) : Inv k t := by
  rw [Session.step, if_neg (by simp [h.1])] at hstep
  split at hstep
  · cases hstep
    exact h
  · cases hstep
    have hmoved : Inv k ⟨Function.update s.fifos i (s.fifos j),
        Function.update s.lists i (s.lists j), s.fault⟩ := ⟨h.1, fun l => h.update (h.2 j) l⟩
    exact ⟨h.1, fun l => hmoved.update Rep.create l⟩

/-- In a state with the invariant the queues answer as their lists do. -/
theorem Inv.answers {s : Session α} (hk : k ≤ 30) (h : Inv k s) : Answers k s := by
  intro i env c hallowed hright
  rcases (fifoCall_spec env hk (h.2 i) hallowed).cases with ⟨e, -, -, hwrong⟩ | ⟨r, hcall, -, hthrow⟩
  · exact absurd hright hwrong
  · exact ⟨r, hcall, hthrow⟩

/-- Any number of chunked queues under any calls are the lists of the same calls. A call that throws
does so for a reason outside the queue, so every other push adds its element. -/
theorem chunkedFifo_refines (hk : k ≤ 30) (es : List (Event α)) :
    Always (Session.step (2 ^ k)) (fun s => Refines k s ∧ Answers k s) Session.create es := by
  have hguarded : Guarded (Session.step (2 ^ k)) (fun _ _ => True) (Session.create : Session α) es :=
    guarded_of_forall (fun _ _ _ => trivial) _
  refine always_of_guarded (Inv k)
    (fun _ hs => ⟨⟨hs.1, fun i => (hs.2 i).agrees hk⟩, hs.answers hk⟩)
    (fun s e t hs _ hstep => ?_) ⟨rfl, fun _ => Rep.create⟩ hguarded
  cases e with
  | call env i c => exact hs.call hk hstep
  | move i j => exact hs.move hstep

/-- The chunks of 128 items that the source uses. -/
theorem chunkedFifo_refines_default :
    Always (Session.step 128) (fun s => Refines 7 s ∧ Answers 7 s) (Session.create : Session Nat)
      [.call ⟨fun _ => some 0, false⟩ 0 (.pushBack 5), .call ⟨fun _ => none, false⟩ 0 .popFront] :=
  chunkedFifo_refines (k := 7) (by decide) _

end Netstar.Proofs.Core.ChunkedFifo
