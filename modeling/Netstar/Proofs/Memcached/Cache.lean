import Netstar.Lib.Result
import Netstar.Proofs.Memcached.Item
import Netstar.Spec.Memcached.Request

/-!
# `Netstar.Proofs.Memcached.Cache`: references, links and items

`Refs s refs` says what the reference counts mean: an object is in use exactly if it has references,
its counter is their number, and it is in an LRU list exactly if there is one. So an LRU list has
every item with one reference, and does not ask who holds it.

`Links` is about the table and the timer set: which items are linked, that no two of them have the
same key, and that the timer set has the ones that expire.

The rules for the functions of the source say what happens to the references, to the linked items
and to the contents of the items (`Cache.item`), which do not include the counter.
-/

set_option autoImplicit false

namespace Netstar.Proofs.Memcached

open Netstar.Lib
open Netstar.Spec.Memcached

/-- An item without its reference count. -/
def content (it : Item) : Item := { it with refCount := 0 }

/-- What an object holds, without the reference count. -/
def item (s : Cache) (a : Nat) : Option Item := (s.objects a).map content

/-- The difference of `decr` stops at 0. -/
theorem sub_min_toNat (v delta : UInt64) : (v - min v delta).toNat = v.toNat - delta.toNat := by
  show (v - if v ≤ delta then v else delta).toNat = _
  by_cases hle : v ≤ delta
  · have hle' := UInt64.le_iff_toNat_le.mp hle
    rw [if_pos hle, UInt64.toNat_sub_of_le _ _ (UInt64.le_refl v)]
    omega
  · have hle' : delta ≤ v := UInt64.le_of_lt (UInt64.not_le.mp hle)
    rw [if_neg hle, UInt64.toNat_sub_of_le _ _ hle']

variable {s s' : Cache} {a b : Nat} {it it' : Item} {refs : Nat → Nat}

/-! ### References -/

/-- The counters are the numbers of references. -/
structure Refs (s : Cache) (refs : Nat → Nat) : Prop where
  count : ∀ a it, s.objects a = some it → it.refCount.toNat = refs a
  live : ∀ a, (s.objects a).isSome ↔ refs a ≠ 0
  lru_nodup : s.lru.Nodup
  lru_iff : ∀ a, a ∈ s.lru ↔ refs a = 1

/-- Everything but the objects and the LRU lists is the same. -/
structure SameLinks (s s' : Cache) : Prop where
  table : s'.table = s.table
  alive : s'.alive = s.alive
  stats : s'.stats = s.stats
  created : s'.created = s.created

/-- Writing one object updates the items at that address alone. -/
theorem item_update (v : Option Item) :
    item { s with objects := Function.update s.objects a v } =
      Function.update (item s) a (v.map content) := by
  funext b
  by_cases h : b = a
  · subst h
    simp [item]
  · simp [item, h]

/-- A change of the counter is not a change of the item. -/
theorem item_store_refCount (h : s.objects a = some it) (n : UInt16) :
    item (s.store a { it with refCount := n }) = item s := by
  funext b
  by_cases hb : b = a
  · subst hb
    simp [item, Cache.store, h, content]
  · simp [item, Cache.store, hb]

namespace Refs

/-- A handle that somebody holds can be read, and the item counts the references to it. -/
theorem deref (h : Refs s refs) (ha : refs a ≠ 0) :
    ∃ it, s.objects a = some it ∧ s.deref a = .ok it ∧ it.refCount.toNat = refs a := by
  obtain ⟨it, hit⟩ := Option.isSome_iff_exists.mp ((h.live a).mpr ha)
  refine ⟨it, hit, ?_, h.count a it hit⟩
  rw [Cache.deref, hit]

/-- The counter of one object changes, and the LRU lists follow. -/
theorem store (h : Refs s refs) (hit : s.objects a = some it) {n : UInt16} {lru : List Nat}
    (hn : n.toNat ≠ 0) (hnodup : lru.Nodup) (hself : a ∈ lru ↔ n.toNat = 1)
    (hother : ∀ b, b ≠ a → (b ∈ lru ↔ b ∈ s.lru)) :
    Refs { s.store a { it with refCount := n } with lru := lru }
      (Function.update refs a n.toNat) := by
  refine ⟨?_, ?_, hnodup, ?_⟩
  · intro b it' hb
    by_cases hba : b = a
    · subst hba
      simp only [Cache.store, Function.update_self, Option.some.injEq] at hb ⊢
      rw [← hb]
    · simp only [Cache.store, Function.update_of_ne hba] at hb ⊢
      exact h.count b it' hb
  · intro b
    by_cases hba : b = a
    · subst hba
      simp [Cache.store, hn]
    · simp only [Cache.store, Function.update_of_ne hba]
      exact h.live b
  · intro b
    by_cases hba : b = a
    · subst hba
      rw [Function.update_self]
      exact hself
    · rw [Function.update_of_ne hba, ← h.lru_iff b]
      exact hother b hba

/-- `intrusive_ptr_add_ref` of an item that has references. -/
theorem addRef (h : Refs s refs) (ha : refs a ≠ 0) (hlt : refs a + 1 < 65536) :
    ∃ s', s.addRef a = .ok s' ∧ Refs s' (Function.update refs a (refs a + 1)) ∧
      item s' = item s ∧ SameLinks s s' := by
  obtain ⟨it, hit, hderef, hcount⟩ := h.deref ha
  have hn : (it.refCount + 1).toNat = refs a + 1 := by
    rw [UInt16.toNat_add, hcount]
    exact Nat.mod_eq_of_lt hlt
  rw [Cache.addRef, hderef, ok_bind]
  by_cases htwo : it.refCount + 1 = 2
  · -- the second reference takes the item out of the LRU list
    have hone : refs a = 1 := by
      rw [htwo] at hn
      have : (2 : UInt16).toNat = 2 := rfl
      omega
    have hmem : a ∈ s.lru := (h.lru_iff a).mpr hone
    refine ⟨{ s.store a { it with refCount := it.refCount + 1 } with lru := s.lru.erase a },
      ?_, ?_, item_store_refCount hit _, ⟨rfl, rfl, rfl, rfl⟩⟩
    · rw [if_pos htwo]
      exact if_pos hmem
    · rw [← hn]
      apply h.store hit (by omega) (h.lru_nodup.erase a)
      · rw [hn]
        simp [h.lru_nodup.mem_erase_iff, hone]
      · intro b hb
        rw [h.lru_nodup.mem_erase_iff]
        simp [hb]
  · -- Only the step from one reference to two changes the LRU list.
    have hne : refs a ≠ 1 := by
      intro hone
      apply htwo
      rw [← UInt16.toNat_inj, hn, hone]
      rfl
    refine ⟨s.store a { it with refCount := it.refCount + 1 }, ?_, ?_, item_store_refCount hit _,
      ⟨rfl, rfl, rfl, rfl⟩⟩
    · rw [if_neg htwo]
      rfl
    · rw [← hn]
      apply h.store hit (by omega) h.lru_nodup
      · rw [h.lru_iff, hn]
        omega
      · exact fun b _ => Iff.rfl

/-- The last reference goes, and the object with it. -/
theorem free (h : Refs s refs) :
    Refs { s with objects := Function.update s.objects a none, lru := s.lru.erase a }
      (Function.update refs a 0) := by
  refine ⟨?_, ?_, h.lru_nodup.erase a, ?_⟩
  · intro b it hb
    by_cases hba : b = a
    · subst hba
      simp at hb
    · simp only [Function.update_of_ne hba] at hb ⊢
      exact h.count b it hb
  · intro b
    by_cases hba : b = a
    · subst hba
      simp
    · simp only [Function.update_of_ne hba]
      exact h.live b
  · intro b
    rw [h.lru_nodup.mem_erase_iff]
    by_cases hba : b = a
    · subst hba
      simp
    · simp [hba, h.lru_iff]

/-- The items when `a` loses a reference: it is freed with the last one. -/
def itemsAfter (s : Cache) (refs : Nat → Nat) (a : Nat) : Nat → Option Item :=
  if refs a = 1 then Function.update (item s) a none else item s

/-- `intrusive_ptr_release`. -/
theorem release (h : Refs s refs) (ha : refs a ≠ 0) :
    ∃ s', s.release a = .ok s' ∧ Refs s' (Function.update refs a (refs a - 1)) ∧
      item s' = itemsAfter s refs a ∧ SameLinks s s' := by
  obtain ⟨it, hit, hderef, hcount⟩ := h.deref ha
  have hn : (it.refCount - 1).toNat = refs a - 1 := by
    have hle : (1 : UInt16) ≤ it.refCount := by
      rw [UInt16.le_iff_toNat_le, hcount]
      exact Nat.one_le_iff_ne_zero.mpr ha
    rw [UInt16.toNat_sub_of_le _ _ hle, hcount]
    rfl
  rw [Cache.release, hderef, ok_bind]
  by_cases hone : it.refCount - 1 = 1
  -- Only the cache holds the item from now on, so it goes to the front of the LRU list.
  · have htwo : refs a = 2 := by
      rw [hone] at hn
      have : (1 : UInt16).toNat = 1 := rfl
      omega
    have hmem : a ∉ s.lru := by
      rw [h.lru_iff]
      omega
    refine ⟨{ s.store a { it with refCount := it.refCount - 1 } with lru := a :: s.lru }, ?_, ?_, ?_,
      ⟨rfl, rfl, rfl, rfl⟩⟩
    · rw [if_pos hone]
      exact if_neg hmem
    · rw [← hn]
      apply h.store hit (by omega) (List.nodup_cons.mpr ⟨hmem, h.lru_nodup⟩)
      · rw [hn]
        simp [htwo]
      · intro b hb
        simp [hb]
    · rw [itemsAfter, if_neg (by omega)]
      exact item_store_refCount hit _
  · rw [if_neg hone]
    by_cases hzero : it.refCount - 1 = 0
    -- That was the last reference: the object is taken off the list and freed.
    · have hrefs : refs a = 1 := by
        rw [hzero] at hn
        have : (0 : UInt16).toNat = 0 := rfl
        omega
      have hmem : a ∈ s.lru := (h.lru_iff a).mpr hrefs
      refine ⟨{ s with objects := Function.update s.objects a none, lru := s.lru.erase a }, ?_, ?_, ?_,
        ⟨rfl, rfl, rfl, rfl⟩⟩
      · have hremove : (s.store a { it with refCount := it.refCount - 1 }).removeFromLru a = _ :=
          if_pos hmem
        rw [if_pos hzero, Cache.slabFree, hremove, ok_bind]
        simp [Cache.store, pure, Except.pure]
      · rw [hrefs]
        exact h.free
      · rw [itemsAfter, if_pos hrefs]
        exact item_update none
    -- Others hold the item too, and only the counter changes.
    · have hne : refs a ≠ 1 := by
        intro hrefs
        apply hzero
        rw [← UInt16.toNat_inj, hn, hrefs]
        rfl
      have hne' : refs a ≠ 2 := by
        intro hrefs
        apply hone
        rw [← UInt16.toNat_inj, hn, hrefs]
        rfl
      refine ⟨s.store a { it with refCount := it.refCount - 1 }, ?_, ?_, ?_, ⟨rfl, rfl, rfl, rfl⟩⟩
      · rw [if_neg hzero]
        rfl
      · rw [← hn]
        apply h.store hit (by omega) h.lru_nodup
        · rw [h.lru_iff, hn]
          omega
        · exact fun b _ => Iff.rfl
      · rw [itemsAfter, if_neg hne]
        exact item_store_refCount hit _

/-- The links do not matter for the references. -/
theorem congr (h : Refs s refs) (hobjects : s'.objects = s.objects) (hlru : s'.lru = s.lru) :
    Refs s' refs := by
  refine ⟨?_, ?_, ?_, ?_⟩
  · rw [hobjects]
    exact h.count
  · rw [hobjects]
    exact h.live
  · rw [hlru]
    exact h.lru_nodup
  · rw [hlru]
    exact h.lru_iff

end Refs

/-! ### Links -/

section

variable {held leaked linked pending : List Nat}

/-- The references: one for each link, one for each reply that holds the item, and one for each item
that the table did not take. -/
def refsOf (held leaked linked : List Nat) (a : Nat) : Nat :=
  linked.count a + held.count a + leaked.count a

/-- The linked items, the ones that the table did not take, and the ones that the timer set has given
up. -/
structure Links (s : Cache) (leaked linked pending : List Nat) : Prop where
  linked_nodup : linked.Nodup
  leaked_unlinked : ∀ a ∈ leaked, a ∉ linked
  alive_nodup : s.alive.Nodup
  alive_iff : ∀ a, a ∈ s.alive ↔
    a ∉ pending ∧ (a ∈ linked ∨ a ∈ leaked) ∧ (item s a).any (·.expiry.isSome)
  distinct : ∀ a ∈ linked, ∀ b ∈ linked, ∀ it it', item s a = some it → item s b = some it' →
    it.same it' = true → a = b
  key_lt : ∀ a ∈ linked, ∀ it, item s a = some it → it.key.length < 256

/-- The references and the links fit together. -/
structure Inv (s : Cache) (held leaked linked pending : List Nat) : Prop where
  refs : Refs s (refsOf held leaked linked)
  links : Links s leaked linked pending

/-- The size of the item in an object. -/
def sizeAt (s : Cache) (a : Nat) : Nat := ((item s a).map Item.size).getD 0

/-- `_bytes` is the sum of the sizes of the linked items. -/
def Accounted (s : Cache) (linked : List Nat) : Prop :=
  s.stats.bytes = UInt64.ofNat (linked.map (sizeAt s)).sum

/-- Unlinking an item takes one reference from it and from no other. -/
theorem refsOf_erase (hnodup : linked.Nodup) (ha : a ∈ linked) :
    refsOf held leaked (linked.erase a) =
      Function.update (refsOf held leaked linked) a (refsOf held leaked linked a - 1) := by
  funext b
  by_cases hb : b = a
  · subst hb
    rw [Function.update_self, refsOf, refsOf, List.count_erase_self, hnodup.count, if_pos ha]
    omega
  · rw [Function.update_of_ne hb, refsOf, refsOf, List.count_erase_of_ne hb]

/-- Linking an item adds one reference to it and to no other. -/
theorem refsOf_cons_linked (ha : a ∉ linked) :
    refsOf held leaked (a :: linked) =
      Function.update (refsOf held leaked linked) a (refsOf held leaked linked a + 1) := by
  funext b
  by_cases hb : b = a
  · subst hb
    rw [Function.update_self, refsOf, refsOf, List.count_cons_self]
    omega
  · rw [Function.update_of_ne hb, refsOf, refsOf, List.count_cons_of_ne (Ne.symm hb)]

/-- Handing a reference out adds one to the item and to no other. -/
theorem refsOf_cons_held :
    refsOf (a :: held) leaked linked =
      Function.update (refsOf held leaked linked) a (refsOf held leaked linked a + 1) := by
  funext b
  by_cases hb : b = a
  · subst hb
    rw [Function.update_self, refsOf, refsOf, List.count_cons_self]
    omega
  · rw [Function.update_of_ne hb, refsOf, refsOf, List.count_cons_of_ne (Ne.symm hb)]

namespace Links

/-- A linked item keeps its entry in `item`, or is unlinked with it. -/
theorem unlink (h : Links s leaked linked pending) (ha : a ∈ linked)
    (halive : s'.alive.Nodup ∧ ∀ b, b ∈ s'.alive ↔ b ∈ s.alive ∧ b ≠ a)
    (hitem : ∀ b, b ≠ a → item s' b = item s b) :
    Links s' leaked (linked.erase a) pending := by
  have hsub : ∀ b, b ∈ linked.erase a ↔ b ≠ a ∧ b ∈ linked := fun b => h.linked_nodup.mem_erase_iff
  have hleaked : a ∉ leaked := fun hmem => h.leaked_unlinked a hmem ha
  refine ⟨h.linked_nodup.erase a, ?_, halive.1, ?_, ?_, ?_⟩
  · intro b hb hmem
    exact h.leaked_unlinked b hb ((hsub b).mp hmem).2
  · intro b
    rw [halive.2, h.alive_iff, hsub]
    by_cases hb : b = a
    · subst hb
      simp [hleaked]
    · simp [hb, hitem b hb]
  · intro b hb c hc it it' hit hit'
    obtain ⟨hba, hb⟩ := (hsub b).mp hb
    obtain ⟨hca, hc⟩ := (hsub c).mp hc
    rw [hitem b hba] at hit
    rw [hitem c hca] at hit'
    exact h.distinct b hb c hc it it' hit hit'
  · intro b hb it hit
    obtain ⟨hba, hb⟩ := (hsub b).mp hb
    rw [hitem b hba] at hit
    exact h.key_lt b hb it hit

/-- The links depend on the timer list and the items only. -/
theorem congr (h : Links s leaked linked pending) (halive : s'.alive = s.alive)
    (hitem : item s' = item s) : Links s' leaked linked pending := by
  refine ⟨h.linked_nodup, h.leaked_unlinked, ?_, ?_, ?_, ?_⟩
  · rw [halive]
    exact h.alive_nodup
  · rw [halive, hitem]
    exact h.alive_iff
  · rw [hitem]
    exact h.distinct
  · rw [hitem]
    exact h.key_lt

end Links

/-! ### `erase` -/

/-- The cache after `erase` without the release. -/
def unlinked (inCache inTimerList : Bool) (s : Cache) (a : Nat) (it : Item) : Cache :=
  { s with
    table := if inCache then s.table.erase a else s.table
    alive := if inTimerList && it.expiry.isSome then s.alive.erase a else s.alive
    stats.bytes := s.stats.bytes - UInt64.ofNat it.size }

/-- What `erase` does to a linked item: both links are taken off, and the reference goes when it is
told to. -/
theorem erase_eq {inCache inTimerList rel : Bool} (hit : s.objects a = some it)
    (htable : inCache = true → a ∈ s.table)
    (halive : inTimerList = true → it.expiry.isSome = true → a ∈ s.alive) :
    s.erase inCache inTimerList rel a =
      if rel then (unlinked inCache inTimerList s a it).release a
      else .ok (unlinked inCache inTimerList s a it) := by
  have hderef : s.deref a = .ok it := by rw [Cache.deref, hit]
  have hfirst : s.unlinkTable inCache a =
      .ok { s with table := if inCache then s.table.erase a else s.table } := by
    cases inCache with
    | false => rfl
    | true => exact if_pos (htable rfl)
  have hsecond : ∀ table : List Nat,
      Cache.unlinkAlive (inTimerList && it.expiry.isSome) { s with table := table } a =
      .ok { s with
        table := table
        alive := if inTimerList && it.expiry.isSome then s.alive.erase a else s.alive } := by
    intro table
    by_cases hboth : (inTimerList && it.expiry.isSome) = true
    · obtain ⟨htimer, hexpiry⟩ := Bool.and_eq_true_iff.mp hboth
      rw [Cache.unlinkAlive, if_pos hboth, if_pos hboth]
      exact if_pos (halive htimer hexpiry)
    · rw [Cache.unlinkAlive, if_neg hboth, if_neg hboth]
  rw [Cache.erase, hderef, ok_bind, hfirst, ok_bind, hsecond, ok_bind]
  rfl

/-- What an operation that unlinks `a` leaves: the object is free unless a reply holds it. -/
structure Unlinks (s s' : Cache) (held : List Nat) (a : Nat) : Prop where
  item_eq : item s' = if a ∈ held then item s else Function.update (item s) a none
  bytes : s'.stats.bytes = s.stats.bytes - UInt64.ofNat (sizeAt s a)
  created : s'.created = s.created

/-- Unlinking one item leaves the others as they are. -/
theorem Unlinks.item_of_ne (h : Unlinks s s' held a) (hb : b ≠ a) : item s' b = item s b := by
  rw [h.item_eq]
  split
  · rfl
  · exact Function.update_of_ne hb ..

/-- The sum of the sizes goes down with the item. -/
theorem Unlinks.accounted (h : Unlinks s s' held a) (hnodup : linked.Nodup) (ha : a ∈ linked)
    (hacc : Accounted s linked) : Accounted s' (linked.erase a) := by
  have hsum : (linked.map (sizeAt s)).sum = sizeAt s a + ((linked.erase a).map (sizeAt s)).sum := by
    have hperm := (List.perm_cons_erase ha).map (sizeAt s)
    rw [hperm.sum_nat]
    rfl
  have hsame : (linked.erase a).map (sizeAt s') = (linked.erase a).map (sizeAt s) := by
    apply List.map_congr_left
    intro b hb
    rw [sizeAt, sizeAt, h.item_of_ne (hnodup.mem_erase_iff.mp hb).1]
  rw [Accounted, h.bytes, hacc, hsum, hsame, UInt64.ofNat_add, UInt64.add_comm,
    UInt64.add_sub_cancel]

/-- The size at an address is the size of the item there. -/
theorem sizeAt_eq (hit : s.objects a = some it) : sizeAt s a = it.size := by
  rw [sizeAt, item, hit]
  rfl

/-- The item at an address is the content of the object there. -/
theorem item_of_objects (hit : s.objects a = some it) : item s a = some (content it) := by
  rw [item, hit]
  rfl

/-- A leaked item still counts a reference. -/
theorem refsOf_ne_zero_of_leaked (ha : a ∈ leaked) : refsOf held leaked linked a ≠ 0 := by
  have := List.count_pos_iff.mpr ha
  rw [refsOf]
  omega

/-- A linked item counts the reference of the table. -/
theorem refsOf_ne_zero (ha : a ∈ linked) : refsOf held leaked linked a ≠ 0 := by
  have := List.count_pos_iff.mpr ha
  rw [refsOf]
  omega

namespace Inv

/-- A linked item that is not leaked has one reference exactly if no reply holds it. -/
theorem refs_eq_one (h : Inv s held leaked linked pending) (ha : a ∈ linked) :
    refsOf held leaked linked a = 1 ↔ a ∉ held := by
  have hleaked : leaked.count a = 0 :=
    List.count_eq_zero.mpr fun hmem => h.links.leaked_unlinked a hmem ha
  rw [refsOf, h.links.linked_nodup.count, if_pos ha, hleaked, ← List.count_eq_zero]
  omega

/-- The timer set loses the item if it has it. -/
theorem unlinked_alive (h : Inv s held leaked linked pending) (hit : s.objects a = some it)
    {inTimerList : Bool} (hpending : inTimerList = false → a ∉ s.alive) {inCache : Bool} :
    (unlinked inCache inTimerList s a it).alive.Nodup ∧
      ∀ b, b ∈ (unlinked inCache inTimerList s a it).alive ↔ b ∈ s.alive ∧ b ≠ a := by
  show (if inTimerList && it.expiry.isSome then s.alive.erase a else s.alive).Nodup ∧
    ∀ b, b ∈ (if inTimerList && it.expiry.isSome then s.alive.erase a else s.alive) ↔ _
  split
  · refine ⟨h.links.alive_nodup.erase a, fun b => ?_⟩
    rw [h.links.alive_nodup.mem_erase_iff]
    exact and_comm
  · rename_i hboth
    -- an item without an expiry is not in the timer set
    have hnot : a ∉ s.alive := by
      cases inTimerList with
      | false => exact hpending rfl
      | true =>
        intro hmem
        have hexpiry := ((h.links.alive_iff a).mp hmem).2.2
        rw [item_of_objects hit] at hexpiry
        exact hboth hexpiry
    refine ⟨h.links.alive_nodup, fun b => ⟨fun hb => ⟨hb, ?_⟩, fun hb => hb.1⟩⟩
    rintro rfl
    exact hnot hb

/-- `erase` with the release, in its three forms: with the table, without it, and for an item that the
timer set has given up. -/
theorem erase (h : Inv s held leaked linked pending) (ha : a ∈ linked)
    (inCache inTimerList : Bool) (htable : inCache = true → a ∈ s.table)
    (hpending : inTimerList = true ↔ a ∉ pending) :
    ∃ s', s.erase inCache inTimerList true a = .ok s' ∧
      Inv s' held leaked (linked.erase a) pending ∧ Unlinks s s' held a ∧
      s'.table = if inCache then s.table.erase a else s.table := by
  obtain ⟨it, hit, -, -⟩ := h.refs.deref (refsOf_ne_zero ha)
  have halive : inTimerList = true → it.expiry.isSome = true → a ∈ s.alive := by
    intro htimer hexpiry
    rw [h.links.alive_iff, item_of_objects hit]
    exact ⟨hpending.mp htimer, .inl ha, hexpiry⟩
  -- Without `unlink_timer` the item has left the timer set before: it is one of the expired.
  have hnot : inTimerList = false → a ∉ s.alive := by
    intro htimer hmem
    have := hpending.mpr ((h.links.alive_iff a).mp hmem).1
    rw [htimer] at this
    cases this
  have hrefs : Refs (unlinked inCache inTimerList s a it) (refsOf held leaked linked) :=
    h.refs.congr rfl rfl
  obtain ⟨s', hrelease, hrefs', hitem, hsame⟩ := hrefs.release (refsOf_ne_zero ha)
  have hitem' : item s' = if a ∈ held then item s else Function.update (item s) a none := by
    rw [hitem, Refs.itemsAfter]
    by_cases hheld : a ∈ held
    · rw [if_pos hheld, if_neg (fun hone => (h.refs_eq_one ha).mp hone hheld)]
      rfl
    · rw [if_neg hheld, if_pos ((h.refs_eq_one ha).mpr hheld)]
      rfl
  have hunlinks : Unlinks s s' held a := by
    refine ⟨hitem', ?_, hsame.created⟩
    rw [hsame.stats, sizeAt_eq hit]
    rfl
  refine ⟨s', ?_, ⟨?_, ?_⟩, hunlinks, hsame.table⟩
  · rw [erase_eq hit htable halive]
    exact hrelease
  · rw [refsOf_erase h.links.linked_nodup ha]
    exact hrefs'
  · apply h.links.unlink ha
    · rw [hsame.alive]
      exact h.unlinked_alive hit hnot
    · exact fun b hb => hunlinks.item_of_ne hb

/-- The allocator evicts an item that is linked. -/
theorem evict (h : Inv s held leaked linked []) (htable : s.table = linked) (hlru : a ∈ s.lru)
    (ha : a ∈ linked) :
    ∃ s', s.evict a = .ok s' ∧ Inv s' held leaked (linked.erase a) [] ∧ Unlinks s s' held a ∧
      s'.table = linked.erase a ∧ a ∉ held ∧ s'.lru = s.lru.erase a := by
  have hone : refsOf held leaked linked a = 1 := (h.refs.lru_iff a).mp hlru
  have hheld : a ∉ held := (h.refs_eq_one ha).mp hone
  obtain ⟨it, hit, hderef, hcount⟩ := h.refs.deref (refsOf_ne_zero ha)
  have hrefCount : it.refCount = 1 := by
    rw [← UInt16.toNat_inj, hcount, hone]
    rfl
  -- Nothing is pending between two calls, so an item with an expiry is in the timer set.
  have halive : it.expiry.isSome = true → a ∈ s.alive := by
    intro hexpiry
    rw [h.links.alive_iff, item_of_objects hit]
    exact ⟨by simp, .inl ha, hexpiry⟩
  have hremove : s.removeFromLru a = .ok { s with lru := s.lru.erase a } := if_pos hlru
  have herase : Cache.erase true true false { s with lru := s.lru.erase a } a = .ok _ :=
    erase_eq hit (fun _ => htable ▸ ha) (fun _ => halive)
  let s₁ := unlinked true true { s with lru := s.lru.erase a } a it
  refine ⟨{ s₁ with
    stats.evicted := s₁.stats.evicted + 1, objects := Function.update s₁.objects a none }, ?_, ?_, ?_,
    ?_, hheld, rfl⟩
  · rw [Cache.evict, if_neg (not_not.mpr hlru), hderef]
    show (if it.refCount ≠ 1 then _ else _) = _
    rw [if_neg (not_not.mpr hrefCount), hremove]
    show (Cache.erase true true false _ a >>= _) = _
    rw [herase]
    rfl
  · constructor
    · rw [refsOf_erase h.links.linked_nodup ha, hone]
      exact (h.refs.free (a := a)).congr rfl rfl
    · apply h.links.unlink ha
      · have halive' := @unlinked_alive s a it held leaked linked [] h hit true
          (fun hfalse => nomatch hfalse) true
        exact halive'
      · intro b hb
        show ((Function.update s.objects a none) b).map content = _
        rw [Function.update_of_ne hb]
        rfl
  · refine ⟨?_, ?_, rfl⟩
    · rw [if_neg hheld]
      exact item_update none
    · rw [sizeAt_eq hit]
      rfl
  · show s.table.erase a = linked.erase a
    rw [htable]

end Inv

/-! ### Evictions -/

/-- The allocator gave an answer that it does not give, or it has an item that is not linked. -/
def Refused (s : Cache) (e : CacheFault) : Prop :=
  e = .notOffered ∨ (e = .notLinked ∧ ∃ a ∈ s.lru, a ∉ s.table)

/-- The items `vs` are evicted. -/
structure Evicted (s s' : Cache) (held leaked vs : List Nat) : Prop where
  inv : Inv s' held leaked s'.table []
  table : s'.table = s.table.filter (· ∉ vs)
  item_eq : ∀ a, item s' a = if a ∈ vs then none else item s a
  victims : ∀ a ∈ vs, a ∈ s.table ∧ a ∉ held
  lru : ∀ a ∈ s'.lru, a ∈ s.lru ∧ a ∉ vs
  created : s'.created = s.created
  accounted : Accounted s s.table → Accounted s' s'.table

/-- Evicting nothing changes nothing. -/
theorem Evicted.nil (h : Inv s held leaked s.table []) : Evicted s s held leaked [] := by
  refine ⟨h, ?_, ?_, ?_, ?_, rfl, id⟩
  · simp
  · simp
  · simp
  · simp

/-- One eviction, and the ones after it. -/
theorem Evicted.cons {s₁ s₂ : Cache} {vs : List Nat} (hinv : Inv s held leaked s.table [])
    (ha : a ∈ s.table) (hheld : a ∉ held) (hunlinks : Unlinks s s₁ held a)
    (htable : s₁.table = s.table.erase a) (hlru : s₁.lru = s.lru.erase a)
    (h : Evicted s₁ s₂ held leaked vs) : Evicted s s₂ held leaked (a :: vs) := by
  have hnodup := hinv.links.linked_nodup
  refine ⟨h.inv, ?_, ?_, ?_, ?_, h.created.trans hunlinks.created, ?_⟩
  · rw [h.table, htable, hnodup.erase_eq_filter, List.filter_filter]
    apply List.filter_congr
    intro b _
    by_cases hb : b = a <;> simp [hb]
  · intro b
    rw [h.item_eq, hunlinks.item_eq, if_neg hheld]
    by_cases hb : b = a
    · subst hb
      simp
    · simp [hb]
  · intro b hb
    rcases List.mem_cons.mp hb with rfl | hb
    · exact ⟨ha, hheld⟩
    · obtain ⟨hmem, hnot⟩ := h.victims b hb
      rw [htable] at hmem
      exact ⟨List.mem_of_mem_erase hmem, hnot⟩
  · intro b hb
    obtain ⟨hmem, hnot⟩ := h.lru b hb
    rw [hlru] at hmem
    refine ⟨List.mem_of_mem_erase hmem, ?_⟩
    rw [List.mem_cons, not_or]
    exact ⟨(hinv.refs.lru_nodup.mem_erase_iff.mp hmem).1, hnot⟩
  · intro hacc
    apply h.accounted
    rw [htable]
    exact hunlinks.accounted hnodup ha hacc

/-- `evict` refuses, or evicts a linked item that no reply holds. -/
theorem evict_cases (h : Inv s held leaked s.table []) (a : Nat) :
    (∃ e, s.evict a = .error e ∧ Refused s e) ∨
      ∃ s', s.evict a = .ok s' ∧ Inv s' held leaked s'.table [] ∧ Unlinks s s' held a ∧
        s'.table = s.table.erase a ∧ a ∈ s.table ∧ a ∉ held ∧ s'.lru = s.lru.erase a := by
  by_cases hlru : a ∈ s.lru
  · by_cases hmem : a ∈ s.table
    · obtain ⟨s', hevict, hinv, hunlinks, htable, hheld, hlru'⟩ := h.evict rfl hlru hmem
      rw [← htable] at hinv
      exact .inr ⟨s', hevict, hinv, hunlinks, htable, hmem, hheld, hlru'⟩
    · -- the callback takes an item out of the table that is not there
      have hone : refsOf held leaked s.table a = 1 := (h.refs.lru_iff a).mp hlru
      obtain ⟨it, hit, hderef, hcount⟩ := h.refs.deref (by rw [hone]; decide)
      have hrefCount : it.refCount = 1 := by
        rw [← UInt16.toNat_inj, hcount, hone]
        rfl
      have hremove : s.removeFromLru a = .ok { s with lru := s.lru.erase a } := if_pos hlru
      have herase : Cache.erase true true false { s with lru := s.lru.erase a } a =
          .error .notLinked := by
        have hderef' : Cache.deref { s with lru := s.lru.erase a } a = .ok it := hderef
        have hunlink : Cache.unlinkTable true { s with lru := s.lru.erase a } a =
          .error .notLinked := if_neg hmem
        rw [Cache.erase, hderef', ok_bind, hunlink]
        rfl
      refine .inl ⟨.notLinked, ?_, .inr ⟨rfl, a, hlru, hmem⟩⟩
      rw [Cache.evict, if_neg (not_not.mpr hlru), hderef]
      show (if it.refCount ≠ 1 then _ else _) = _
      rw [if_neg (not_not.mpr hrefCount), hremove]
      show (Cache.erase true true false _ a >>= _) = _
      rw [herase]
      rfl
  · refine .inl ⟨.notOffered, ?_, .inl rfl⟩
    rw [Cache.evict, if_pos hlru]
    rfl

/-- Evicting one victim after another keeps the invariant, or stops at the first that the allocator
may not offer. -/
theorem evictAll_spec (h : Inv s held leaked s.table []) (vs : List Nat) :
    Sat (Refused s) (fun s' => Evicted s s' held leaked vs) (vs.foldlM Cache.evict s) := by
  induction vs generalizing s with
  | nil => exact Evicted.nil h
  | cons a vs ih =>
    rw [List.foldlM_cons]
    rcases evict_cases h a with ⟨e, herror, hrefused⟩ | ⟨s₁, hok, hinv, hunlinks, htable, hmem, hheld, hlru⟩
    · rw [herror]
      exact hrefused
    · rw [hok, ok_bind]
      have hrest := ih hinv
      rcases hrest.cases with ⟨e, herror, hrefused⟩ | ⟨s₂, hok₂, hevicted⟩
      · rw [herror]
        rcases hrefused with hoffered | ⟨hlinked, b, hb, hnot⟩
        · exact .inl hoffered
        · refine .inr ⟨hlinked, b, ?_, ?_⟩
          · rw [hlru] at hb
            exact List.mem_of_mem_erase hb
          · intro hb'
            rw [htable, h.links.linked_nodup.mem_erase_iff] at hnot
            rw [hlru, h.refs.lru_nodup.mem_erase_iff] at hb
            exact hnot ⟨hb.1, hb'⟩
      · rw [hok₂]
        exact Evicted.cons h hmem hheld hunlinks htable hlru hevicted

/-- `slab_allocator::create`. -/
theorem slabCreate_spec (h : Inv s held leaked s.table []) (answer : SlabAnswer) (it : Item) :
    Sat (Refused s) (fun r => ∃ s₁, Evicted s s₁ held leaked answer.victims ∧
      match r with
      | (s', none) => s' = s₁ ∧ answer.room = .none
      | (s', some b) => s₁.objects b = none ∧ s' = s₁.createItem b it) (s.slabCreate answer it) := by
  have hevict := evictAll_spec h answer.victims
  rw [Cache.slabCreate]
  cases hroom : answer.room with
  | none =>
    have hv : answer.victims = answer.reclaimed := by simp [SlabAnswer.victims, hroom]
    rw [hv] at hevict
    apply hevict.bind
    intro s₁ hs₁
    exact ⟨s₁, hv ▸ hs₁, rfl, rfl⟩
  | fresh b =>
    have hv : answer.victims = answer.reclaimed := by simp [SlabAnswer.victims, hroom]
    rw [hv] at hevict
    apply hevict.bind
    intro s₁ hs₁
    by_cases hb : (s₁.objects b).isSome = true
    · simp only [hb, if_true]
      exact .inl rfl
    · simp only [hb]
      exact ⟨s₁, hv ▸ hs₁, Option.not_isSome_iff_eq_none.mp hb, rfl⟩
  | evict b =>
    have hv : answer.victims = answer.reclaimed ++ [b] := by simp [SlabAnswer.victims, hroom]
    -- The item that makes room is evicted after the reclaimed ones: together they are the victims.
    have hassoc : (answer.reclaimed.foldlM Cache.evict s >>= fun s => s.evict b >>= fun s =>
        (pure (s.createItem b it, some b) : Except CacheFault (Cache × Option Nat))) =
        answer.victims.foldlM Cache.evict s >>= fun s => pure (s.createItem b it, some b) := by
      rw [hv, List.foldlM_append, bind_assoc]
      simp
    show Sat _ _ (answer.reclaimed.foldlM Cache.evict s >>= fun s => s.evict b >>= fun s =>
      pure (s.createItem b it, some b))
    rw [hassoc]
    apply hevict.bind
    intro s₁ hs₁
    -- A victim is freed, so its block can take the new item.
    have hnone : item s₁ b = none := by
      rw [hs₁.item_eq, if_pos (by simp [hv])]
    exact ⟨s₁, hs₁, Option.map_eq_none_iff.mp hnone, rfl⟩

/-! ### A new item -/

/-- The comparison of two items looks at their contents only. -/
theorem same_content (it it' : Item) : it.same (content it') = it.same it' := rfl

/-- An item with the property is in the list. -/
theorem findItem_isSome {l : List Nat} {p : Item → Bool} (hp : ∀ it, p (content it) = p it) :
    (s.findItem l p).isSome = true ↔ ∃ a ∈ l, ∃ it, item s a = some it ∧ p it = true := by
  rw [Cache.findItem, List.find?_isSome]
  constructor
  · rintro ⟨a, ha, hany⟩
    obtain ⟨it, hit, hpit⟩ := (Option.any_eq_true_iff_get _ _).mp hany |> fun ⟨h, hg⟩ =>
      (⟨_, (Option.some_get h).symm, hg⟩ : ∃ it, s.objects a = some it ∧ p it = true)
    exact ⟨a, ha, content it, item_of_objects hit, by rw [hp]; exact hpit⟩
  · rintro ⟨a, ha, it, hit, hpit⟩
    obtain ⟨it', hit', rfl⟩ := Option.map_eq_some_iff.mp hit
    refine ⟨a, ha, ?_⟩
    rw [hit', Option.any_some, ← hp]
    exact hpit

/-- No linked item is equal to the new one. -/
def NoSame (s : Cache) (it : Item) : Prop :=
  ∀ a ∈ s.table, ∀ it', item s a = some it' → it.same it' = false

/-- A search for an equal item succeeds exactly when the table has one. -/
theorem findItem_same (it : Item) :
    (s.findItem s.table it.same).isSome = true ↔ ¬ NoSame s it := by
  rw [findItem_isSome (same_content it), NoSame]
  push Not
  simp

/-- The cache after a new item got its first reference. -/
def withItem (s : Cache) (b : Nat) (it : Item) : Cache :=
  { s.store b { it with refCount := 1 } with lru := b :: s.lru, created := s.created + 1 }

/-- A new item gets its first reference when its handle is made. -/
theorem addRef_createItem (hit : it.refCount = 0) :
    (s.createItem b it).addRef b = .ok (withItem s b it) := by
  have hderef : (s.createItem b it).deref b = .ok it := by
    simp [Cache.deref, Cache.createItem, Cache.store]
  rw [Cache.addRef, hderef, ok_bind, hit]
  simp [withItem, Cache.createItem, Cache.store, pure, Except.pure]

/-- Storing a new item updates the items at its address alone. -/
theorem item_withItem : item (withItem s b it) = Function.update (item s) b (some (content it)) :=
  item_update (some { it with refCount := 1 })

/-- Storing a new item at an unused address gives it one reference. -/
theorem Refs.withItem (h : Refs s refs) (hb : refs b = 0) (it : Item) :
    Refs (withItem s b it) (Function.update refs b 1) := by
  have hmem : b ∉ s.lru := by
    rw [h.lru_iff, hb]
    decide
  refine ⟨?_, ?_, List.nodup_cons.mpr ⟨hmem, h.lru_nodup⟩, ?_⟩
  · intro a it' hit'
    by_cases hab : a = b
    · subst hab
      simp only [Memcached.withItem, Cache.store, Function.update_self, Option.some.injEq] at hit' ⊢
      rw [← hit']
      rfl
    · simp only [Memcached.withItem, Cache.store, Function.update_of_ne hab] at hit' ⊢
      exact h.count a it' hit'
  · intro a
    by_cases hab : a = b
    · subst hab
      simp [Memcached.withItem, Cache.store]
    · simp only [Memcached.withItem, Cache.store, Function.update_of_ne hab]
      exact h.live a
  · intro a
    show a ∈ b :: s.lru ↔ _
    by_cases hab : a = b
    · subst hab
      simp
    · simp [hab, h.lru_iff]

/-- The timer set after the new item: it has the item if it expires. -/
def aliveWith (s : Cache) (b : Nat) (it : Item) : List Nat :=
  if it.expiry.isSome then b :: s.alive else s.alive

/-- A new item enters the timer list once. -/
theorem aliveWith_nodup (h : s.alive.Nodup) (hb : b ∉ s.alive) : (aliveWith s b it).Nodup := by
  rw [aliveWith]
  split
  · exact List.nodup_cons.mpr ⟨hb, h⟩
  · exact h

/-- The new item in the timer set, linked or not. -/
theorem alive_iff_with {linked' leaked' : List Nat} (h : Links s leaked linked [])
    (hb : b ∉ s.alive) (hitem : item s' = Function.update (item s) b (some (content it)))
    (halive : s'.alive = aliveWith s b it)
    (hmem : ∀ a, (a ∈ linked' ∨ a ∈ leaked') ↔ a = b ∨ a ∈ linked ∨ a ∈ leaked) (a : Nat) :
    a ∈ s'.alive ↔ a ∉ [] ∧ (a ∈ linked' ∨ a ∈ leaked') ∧ (item s' a).any (·.expiry.isSome) := by
  rw [halive, hmem, hitem, aliveWith]
  by_cases hab : a = b
  · subst hab
    by_cases hexpiry : it.expiry.isSome = true
    · simp [hexpiry, content]
    · simp [hexpiry, hb, content]
  · have hold := h.alive_iff a
    by_cases hexpiry : it.expiry.isSome = true
    · simp [hexpiry, hab, hold]
    · simp [hexpiry, hab, hold]

/-- The object is not in use, so nothing refers to it. -/
theorem Inv.unused (h : Inv s held leaked linked pending) (hb : s.objects b = none) :
    refsOf held leaked linked b = 0 ∧ b ∉ linked ∧ b ∉ leaked ∧ b ∉ s.alive := by
  have hzero : refsOf held leaked linked b = 0 := by
    by_contra hne
    have := (h.refs.live b).mpr hne
    rw [hb] at this
    cases this
  rw [refsOf] at hzero
  refine ⟨by rw [refsOf]; exact hzero, List.count_eq_zero.mp (by omega),
    List.count_eq_zero.mp (by omega), ?_⟩
  intro hmem
  have hany := ((h.links.alive_iff b).mp hmem).2.2
  rw [item, hb] at hany
  cases hany

/-- A new item is linked. -/
theorem Inv.link (h : Inv s held leaked s.table []) (hb : s.objects b = none)
    (hsame : NoSame s it) (hkey : it.key.length < 256)
    (hs' : s'.objects = (withItem s b it).objects ∧ s'.lru = (withItem s b it).lru)
    (htable : s'.table = b :: s.table) (halive : s'.alive = aliveWith s b it) :
    Inv s' held leaked s'.table [] := by
  -- A free address has no references, and no list has it.
  obtain ⟨hzero, hlinked, hleaked, hnot⟩ := h.unused hb
  have hitem : item s' = Function.update (item s) b (some (content it)) := by
    rw [← item_withItem]
    funext a
    rw [item, item, hs'.1]
  rw [htable]
  constructor
  · rw [refsOf_cons_linked hlinked, hzero]
    exact (h.refs.withItem hzero it).congr hs'.1 hs'.2
  · refine ⟨List.nodup_cons.mpr ⟨hlinked, h.links.linked_nodup⟩, ?_, ?_, ?_, ?_, ?_⟩
    · intro a ha hmem
      rcases List.mem_cons.mp hmem with rfl | hmem
      · exact hleaked ha
      · exact h.links.leaked_unlinked a ha hmem
    · rw [halive]
      exact aliveWith_nodup h.links.alive_nodup hnot
    · apply alive_iff_with h.links hnot hitem halive
      intro a
      simp [or_assoc]
    · -- the new item differs from the others, and they from each other
      intro a ha c hc it₁ it₂ hit₁ hit₂ heq
      rw [hitem] at hit₁ hit₂
      have hne : ∀ x ∈ s.table, x ≠ b := fun x hx heq => hlinked (heq ▸ hx)
      rcases List.mem_cons.mp ha with hab | ha'
      · rcases List.mem_cons.mp hc with hcb | hc'
        · exact hab.trans hcb.symm
        · rw [hab, Function.update_self] at hit₁
          rw [Function.update_of_ne (hne c hc')] at hit₂
          cases hit₁
          have hdiff := hsame c hc' it₂ hit₂
          rw [show (content it).same it₂ = it.same it₂ from rfl, hdiff] at heq
          cases heq
      · rw [Function.update_of_ne (hne a ha')] at hit₁
        rcases List.mem_cons.mp hc with hcb | hc'
        · rw [hcb, Function.update_self] at hit₂
          cases hit₂
          have hflip : it.same it₁ = true := by
            rw [Item.same, Bool.and_eq_true, beq_iff_eq, beq_iff_eq] at heq ⊢
            exact ⟨heq.1.symm, heq.2.symm⟩
          rw [hsame a ha' it₁ hit₁] at hflip
          cases hflip
        · rw [Function.update_of_ne (hne c hc')] at hit₂
          exact h.links.distinct a ha' c hc' it₁ it₂ hit₁ hit₂ heq
    · intro a ha it' hit'
      rw [hitem] at hit'
      by_cases hab : a = b
      · subst hab
        rw [Function.update_self] at hit'
        cases hit'
        exact hkey
      · rw [Function.update_of_ne hab] at hit'
        exact h.links.key_lt a ((List.mem_cons.mp ha).resolve_left hab) it' hit'

/-- A new item that the table does not take. -/
theorem Inv.leak (h : Inv s held leaked s.table []) (hb : s.objects b = none)
    (hs' : s'.objects = (withItem s b it).objects ∧ s'.lru = (withItem s b it).lru)
    (htable : s'.table = s.table) (halive : s'.alive = aliveWith s b it) :
    Inv s' held (b :: leaked) s'.table [] := by
  obtain ⟨hzero, hlinked, hleaked, hnot⟩ := h.unused hb
  have hitem : item s' = Function.update (item s) b (some (content it)) := by
    rw [← item_withItem]
    funext a
    rw [item, item, hs'.1]
  -- Nobody gives the reference of the constructor back: it is leaked.
  have hrefs : refsOf held (b :: leaked) s.table =
      Function.update (refsOf held leaked s.table) b 1 := by
    funext a
    by_cases hab : a = b
    · subst hab
      rw [Function.update_self, refsOf, List.count_cons_self]
      rw [refsOf] at hzero
      omega
    · rw [Function.update_of_ne hab, refsOf, refsOf, List.count_cons_of_ne (Ne.symm hab)]
  -- The items of the table are as they were.
  have hold : ∀ a ∈ s.table, item s' a = item s a := by
    intro a ha
    rw [hitem]
    apply Function.update_of_ne
    rintro rfl
    exact hlinked ha
  rw [htable]
  constructor
  · rw [hrefs]
    exact (h.refs.withItem hzero it).congr hs'.1 hs'.2
  · refine ⟨h.links.linked_nodup, ?_, ?_, ?_, ?_, ?_⟩
    · intro a ha
      rcases List.mem_cons.mp ha with rfl | ha
      · exact hlinked
      · exact h.links.leaked_unlinked a ha
    · rw [halive]
      exact aliveWith_nodup h.links.alive_nodup hnot
    · apply alive_iff_with h.links hnot hitem halive
      intro a
      rw [List.mem_cons]
      exact or_left_comm
    · intro a ha c hc it₁ it₂ hit₁ hit₂
      rw [hold a ha] at hit₁
      rw [hold c hc] at hit₂
      exact h.links.distinct a ha c hc it₁ it₂ hit₁ hit₂
    · intro a ha it' hit'
      rw [hold a ha] at hit'
      exact h.links.key_lt a ha it' hit'

/-- A new item is in object `b` and linked. -/
structure Placed (s s' : Cache) (held leaked : List Nat) (b : Nat) (it : Item)
    (insertion : Insertion) : Prop where
  inv : Inv s' held leaked s'.table []
  table : s'.table = b :: s.table
  unused : s.objects b = none
  item_eq : item s' = Function.update (item s) b (some (content it))
  created : s'.created = s.created + 1
  bytes : s'.stats.bytes = s.stats.bytes + UInt64.ofNat insertion.size

/-- A new item is in object `b`, and the table did not take it. -/
structure Leaks (s s' : Cache) (held leaked : List Nat) (b : Nat) (it : Item) : Prop where
  inv : Inv s' held (b :: leaked) s'.table []
  table : s'.table = s.table
  unused : s.objects b = none
  item_eq : item s' = Function.update (item s) b (some (content it))
  created : s'.created = s.created + 1

section

variable {hash : Bytes → UInt64} {insertion : Insertion} {version : UInt64} {serial : Nat}

/-- A new item carries no reference, so its content is itself. -/
theorem content_create :
    content (Item.create hash insertion version serial) =
      Item.create hash insertion version serial := rfl

/-- Inserting an item that is not yet in the timer list succeeds. -/
theorem insertAlive_eq (hb : b ∉ s.alive) (it : Item) :
    s.insertAlive b it.expiry = .ok { s with alive := aliveWith s b it } := by
  rw [Cache.insertAlive, aliveWith]
  by_cases hexpiry : it.expiry.isSome = true
  · rw [if_pos hexpiry, if_neg hb, if_pos hexpiry]
  · rw [if_neg hexpiry, if_neg hexpiry]

/-- New buckets do not change the items. -/
theorem maybeRehash_same (s : Cache) (buckets : Bool) :
    (s.maybeRehash buckets).objects = s.objects ∧ (s.maybeRehash buckets).lru = s.lru ∧
      (s.maybeRehash buckets).table = s.table ∧ (s.maybeRehash buckets).alive = s.alive ∧
      (s.maybeRehash buckets).created = s.created ∧
      (s.maybeRehash buckets).stats.bytes = s.stats.bytes := by
  rw [Cache.maybeRehash]
  split
  · split
    · exact ⟨rfl, rfl, rfl, rfl, rfl, rfl⟩
    · exact ⟨rfl, rfl, rfl, rfl, rfl, rfl⟩
  · exact ⟨rfl, rfl, rfl, rfl, rfl, rfl⟩

/-- The search for an equal item in the table does not see the new one. -/
theorem findItem_withItem (h : Inv s held leaked s.table []) (hb : s.objects b = none) :
    ((withItem s b it).findItem (withItem s b it).table it.same).isSome = true ↔ ¬ NoSame s it := by
  rw [findItem_same]
  have hlinked := (h.unused hb).2.1
  have hsame : NoSame (withItem s b it) it ↔ NoSame s it := by
    refine forall₂_congr fun a ha => ?_
    have hne : a ≠ b := fun heq => hlinked (heq ▸ ha)
    rw [item_withItem, Function.update_of_ne hne]
  rw [hsame]

/-- The allocator makes an item only if there is room. -/
theorem slabCreate_room {answer : SlabAnswer} (h : s.slabCreate answer it = .ok (s', some b)) : answer.room ≠ .none := by
  intro hroom
  rw [Cache.slabCreate] at h
  obtain ⟨s₁, -, hroom'⟩ := bind_eq_ok.mp h
  rw [hroom] at hroom'
  cases hroom'

/-- `add_new`. -/
theorem addNew_spec (h : Inv s held leaked s.table []) (answer : SlabAnswer) :
    Sat (Refused s) (fun r => ∃ s₁, Evicted s s₁ held leaked answer.victims ∧
      match r with
      | (s', none) => s' = s₁ ∧ answer.room = .none
      | (s', some b) =>
        (NoSame s₁ (Item.create hash insertion 1 s.created) →
          Placed s₁ s' held leaked b (Item.create hash insertion 1 s.created) insertion) ∧
        (¬ NoSame s₁ (Item.create hash insertion 1 s.created) →
          Leaks s₁ s' held leaked b (Item.create hash insertion 1 s.created)))
      (s.addNew hash answer insertion) := by
  let it := Item.create hash insertion 1 s.created
  rw [Cache.addNew]
  apply (slabCreate_spec h answer it).bind
  rintro ⟨s', _ | b⟩ ⟨s₁, hevicted, hroom⟩
  · exact ⟨s₁, hevicted, hroom⟩
  · obtain ⟨hb, rfl⟩ := hroom
    have hnot := (hevicted.inv.unused hb).2.2.2
    show Sat _ _ ((s₁.createItem b it).addRef b >>= _)
    rw [addRef_createItem rfl, ok_bind]
    have hfind : ((withItem s₁ b it).findItem (withItem s₁ b it).table it.same).isSome = true ↔
        ¬ NoSame s₁ it := findItem_withItem hevicted.inv hb
    -- `insert` of the table refuses an equal item, and the object stays allocated all the same.
    by_cases hsame : NoSame s₁ it
    · rw [if_neg (fun hsome => hfind.mp hsome hsame)]
      have halive : Cache.insertAlive { withItem s₁ b it with table := b :: s₁.table } b it.expiry =
          .ok _ :=
        insertAlive_eq (s := { withItem s₁ b it with table := b :: s₁.table }) hnot it
      show Sat _ _ (Cache.insertAlive { withItem s₁ b it with table := b :: s₁.table } b it.expiry >>= _)
      rw [halive, ok_bind]
      obtain ⟨hobjects, hlru, htable, halive', hcreated, hbytes⟩ := maybeRehash_same
        { withItem s₁ b it with
          table := b :: s₁.table
          alive := aliveWith s₁ b it
          stats.bytes := s₁.stats.bytes + UInt64.ofNat insertion.size } answer.buckets
      refine ⟨s₁, hevicted, fun _ => ⟨?_, htable, hb, ?_, hcreated, hbytes⟩, fun hno => absurd hsame hno⟩
      · exact hevicted.inv.link hb hsame create_key_lt ⟨hobjects, hlru⟩ htable halive'
      · rw [← item_withItem]
        funext a
        exact congrArg (Option.map content) (congrFun hobjects a)
    · rw [if_pos (hfind.mpr hsame)]
      have halive : Cache.insertAlive (withItem s₁ b it) b it.expiry = .ok _ :=
        insertAlive_eq (s := withItem s₁ b it) hnot it
      show Sat _ _ (Cache.insertAlive (withItem s₁ b it) b it.expiry >>= _)
      rw [halive, ok_bind]
      obtain ⟨hobjects, hlru, htable, halive', hcreated, -⟩ := maybeRehash_same
        { withItem s₁ b it with
          alive := aliveWith s₁ b it
          stats.bytes := s₁.stats.bytes + UInt64.ofNat insertion.size } answer.buckets
      refine ⟨s₁, hevicted, fun hyes => absurd hyes hsame, fun _ => ⟨?_, htable, hb, ?_, hcreated⟩⟩
      · exact hevicted.inv.leak hb ⟨hobjects, hlru⟩ htable halive'
      · rw [← item_withItem]
        funext a
        exact congrArg (Option.map content) (congrFun hobjects a)

/-! ### Search and replacement -/

/-- An item has a key when both the hash and the key agree. -/
theorem hasKey_iff {key : Bytes} :
    it.hasKey hash key = true ↔ it.keyHash = hash key ∧ it.key = key := by
  rw [Item.hasKey, Bool.and_eq_true, beq_iff_eq, beq_iff_eq]

/-- `find` returns a linked item with the key. -/
theorem find_some {key : Bytes} (h : s.find hash key = some a) :
    a ∈ s.table ∧ ∃ it, item s a = some it ∧ it.hasKey hash key = true := by
  have hp := List.find?_some h
  refine ⟨List.mem_of_find?_eq_some h, ?_⟩
  cases hit : s.objects a with
  | none =>
    rw [hit] at hp
    cases hp
  | some it =>
    rw [hit] at hp
    exact ⟨content it, item_of_objects hit, hp⟩

/-- When a lookup fails, no item of the table has the key. -/
theorem find_none {key : Bytes} (h : s.find hash key = none) (ha : a ∈ s.table)
    (hit : item s a = some it) : it.hasKey hash key = false := by
  obtain ⟨it', hit', rfl⟩ := Option.map_eq_some_iff.mp hit
  have hnot := List.find?_eq_none.mp h a ha
  rw [hit', Option.any_some] at hnot
  exact Bool.not_eq_true _ |>.mp hnot

/-- Two linked items with one key are the same item. -/
theorem Links.key_unique {key : Bytes} (h : Links s leaked linked pending) (ha : a ∈ linked)
    (hb : b ∈ linked) (hit : item s a = some it) (hit' : item s b = some it')
    (hkey : it.hasKey hash key = true) (hkey' : it'.hasKey hash key = true) : a = b := by
  apply h.distinct a ha b hb it it' hit hit'
  rw [hasKey_iff] at hkey hkey'
  rw [Item.same, Bool.and_eq_true, beq_iff_eq, beq_iff_eq]
  exact ⟨hkey.1.trans hkey'.1.symm, hkey.2.trans hkey'.2.symm⟩

/-- `find` finds the item with the key. -/
theorem find_eq {key : Bytes} (h : Links s leaked s.table pending) (ha : a ∈ s.table)
    (hit : item s a = some it) (hkey : it.hasKey hash key = true) : s.find hash key = some a := by
  cases hfind : s.find hash key with
  | none =>
    rw [find_none hfind ha hit] at hkey
    cases hkey
  | some b =>
    obtain ⟨hb, it', hit', hkey'⟩ := find_some hfind
    rw [h.key_unique hb ha hit' hit hkey' hkey]

/-- The errors of an operation that unlinks the item `a` and then calls the allocator. -/
def RefusedAfter (s : Cache) (held : List Nat) (a : Nat) (e : CacheFault) : Prop :=
  e = .notOffered ∨ (e = .notLinked ∧ ((∃ b ∈ s.lru, b ∉ s.table) ∨ a ∈ held))

/-- When `a` is unlinked, an item in an LRU list that is not linked was there before, or it is `a`. -/
theorem refusedAfter_of_refused {s₀ : Cache} {e : CacheFault} (h : Inv s held leaked s.table [])
    (ha : a ∈ s.table) (h₀ : Inv s₀ held leaked s₀.table []) (htable : s₀.table = s.table.erase a)
    (he : Refused s₀ e) : RefusedAfter s held a e := by
  rcases he with hoffered | ⟨hlinked, b, hb, hnot⟩
  · exact .inl hoffered
  · refine .inr ⟨hlinked, ?_⟩
    have hone := (h₀.refs.lru_iff b).mp hb
    rw [htable] at hnot hone
    by_cases hba : b = a
    · subst hba
      right
      have hleaked : leaked.count b = 0 :=
        List.count_eq_zero.mpr fun hmem => h.links.leaked_unlinked b hmem ha
      rw [refsOf, List.count_eq_zero.mpr hnot, hleaked] at hone
      exact List.count_pos_iff.mp (by omega)
    · left
      refine ⟨b, (h.refs.lru_iff b).mpr ?_, ?_⟩
      · rw [refsOf, List.count_erase_of_ne hba] at hone
        exact hone
      · intro hmem
        exact hnot (h.links.linked_nodup.mem_erase_iff.mpr ⟨hba, hmem⟩)

/-- A linked item that stays is equal to the new one. -/
def Stays (hash : Bytes → UInt64) (s : Cache) (vs : List Nat) (insertion : Insertion) : Prop :=
  ∃ b ∈ s.table, b ∉ vs ∧ ∃ it, item s b = some it ∧ (Item.create hash insertion 1 0).same it = true

/-- No linked item that stays after evictions is equal to the new one. -/
theorem noSame_of_not_stays {s₁ : Cache} {vs : List Nat} (h : ¬ Stays hash s vs insertion)
    (hevicted : Evicted s s₁ held leaked vs) : NoSame s₁ (Item.create hash insertion version serial) := by
  intro b hb it' hit'
  rw [hevicted.table, List.mem_filter] at hb
  have hvs : b ∉ vs := by simpa using hb.2
  rw [hevicted.item_eq, if_neg hvs] at hit'
  by_contra hsame
  exact h ⟨b, hb.1, hvs, it', hit', (Bool.not_eq_false _).mp hsame⟩

/-- With the old item unlinked, a linked item that stays is another one. -/
theorem Stays.of_unlinked {s₀ : Cache} {vs : List Nat} (h : Stays hash s₀ vs insertion)
    (hnodup : s.table.Nodup) (hunlinks : Unlinks s s₀ held a) (htable : s₀.table = s.table.erase a) :
    Stays hash s (a :: vs) insertion := by
  obtain ⟨b, hb, hvs, it, hit, hsame⟩ := h
  rw [htable, hnodup.mem_erase_iff] at hb
  rw [hunlinks.item_of_ne hb.1] at hit
  exact ⟨b, hb.2, by simp [hb.1, hvs], it, hit, hsame⟩

/-- An item that keeps its key is equal to no other item of the table. -/
theorem not_stays_of_kept {vs : List Nat} {old : Item} (hkept : insertion.Kept)
    (h : Inv s held leaked s.table []) (ha : a ∈ s.table) (hold : item s a = some old)
    (hkey : old.hasKey hash insertion.key = true) : ¬ Stays hash s (a :: vs) insertion := by
  rintro ⟨b, hb, hvs, it, hit, hsame⟩
  refine hvs (List.mem_cons.mpr (.inl ?_))
  refine h.links.key_unique hb ha hit hold ?_ hkey
  rw [Item.same, Bool.and_eq_true, beq_iff_eq, beq_iff_eq, create_key hkept] at hsame
  exact hasKey_iff.mpr ⟨hsame.1.symm, hsame.2.symm⟩

/-- `add_overriding` of the item with the key. -/
theorem addOverriding_spec {old : Item} (h : Inv s held leaked s.table []) (answer : SlabAnswer)
    (ha : a ∈ s.table) (hold : item s a = some old) (hkey : old.hasKey hash insertion.key = true) :
    Sat (fun e => RefusedAfter s held a e ∨
        answer.room ≠ .none ∧ e = .assertion ∧ Stays hash s (a :: answer.victims) insertion)
      (fun r => ∃ s₀ s₁, Inv s₀ held leaked s₀.table [] ∧
        Unlinks s s₀ held a ∧ s₀.table = s.table.erase a ∧ Evicted s₀ s₁ held leaked answer.victims ∧
      match r with
      | (s', none) => s' = s₁ ∧ answer.room = .none
      | (s', some b) =>
        Placed s₁ s' held leaked b (Item.create hash insertion (old.version + 1) s.created) insertion)
      (s.addOverriding hash answer a insertion) := by
  obtain ⟨it, hit, hderef, -⟩ := h.refs.deref (refsOf_ne_zero ha)
  have hversion : it.version = old.version := by
    rw [item_of_objects hit] at hold
    cases hold
    rfl
  obtain ⟨s₀, herase, hinv, hunlinks, htable⟩ :=
    h.erase ha true true (fun _ => ha) (by simp)
  rw [if_pos rfl] at htable
  rw [← htable] at hinv
  let new := Item.create hash insertion (old.version + 1) s.created
  rw [Cache.addOverriding, hderef, ok_bind, herase, ok_bind, hversion, hunlinks.created]
  have hcreate := slabCreate_spec hinv answer new
  rcases hcreate.cases with ⟨e, herror, hrefused⟩ | ⟨⟨s', r⟩, hok, s₁, hevicted, hroom⟩
  · show Sat _ _ (s₀.slabCreate answer new >>= _)
    rw [herror]
    exact .inl (refusedAfter_of_refused h ha hinv htable hrefused)
  · show Sat _ _ (s₀.slabCreate answer new >>= _)
    rw [hok, ok_bind]
    cases r with
    | none => exact ⟨s₀, s₁, hinv, hunlinks, htable, hevicted, hroom⟩
    | some b =>
      obtain ⟨hb, rfl⟩ := hroom
      have hnot := (hevicted.inv.unused hb).2.2.2
      have hfind : ((withItem s₁ b new).findItem (withItem s₁ b new).table new.same).isSome = true ↔
          ¬ NoSame s₁ new := findItem_withItem hevicted.inv hb
      have halive : Cache.insertAlive { withItem s₁ b new with table := b :: s₁.table } b new.expiry =
          .ok _ := insertAlive_eq (s := { withItem s₁ b new with table := b :: s₁.table }) hnot new
      show Sat _ _ ((s₁.createItem b new).addRef b >>= _)
      rw [addRef_createItem rfl, ok_bind]
      by_cases hsame : NoSame s₁ new
      · rw [if_neg (fun hsome => hfind.mp hsome hsame)]
        show Sat _ _ (Cache.insertAlive { withItem s₁ b new with table := b :: s₁.table } b new.expiry >>= _)
        rw [halive, ok_bind]
        refine ⟨s₀, s₁, hinv, hunlinks, htable, hevicted, ?_, rfl, hb, item_withItem, rfl, rfl⟩
        exact hevicted.inv.link hb hsame create_key_lt ⟨rfl, rfl⟩ rfl rfl
      · -- The stored key is another one, and the table has an item with it: the assertion fails.
        rw [if_pos (hfind.mpr hsame)]
        refine .inr ⟨slabCreate_room hok, rfl, ?_⟩
        have hstays : Stays hash s₀ answer.victims insertion := by
          by_contra hnot
          exact hsame (noSame_of_not_stays hnot hevicted)
        exact hstays.of_unlinked h.links.linked_nodup hunlinks htable

end

/-! ### References of replies -/

/-- A reply takes a reference to a linked item. -/
theorem Inv.addRef (h : Inv s held leaked linked pending) (ha : a ∈ linked)
    (hlt : held.count a < 65534) :
    ∃ s', s.addRef a = .ok s' ∧ Inv s' (a :: held) leaked linked pending ∧ item s' = item s ∧
      SameLinks s s' := by
  have hleaked : leaked.count a = 0 :=
    List.count_eq_zero.mpr fun hmem => h.links.leaked_unlinked a hmem ha
  have hrefs : refsOf held leaked linked a = 1 + held.count a := by
    rw [refsOf, h.links.linked_nodup.count, if_pos ha, hleaked]
    omega
  obtain ⟨s', hok, hrefs', hitem, hsame⟩ := h.refs.addRef (refsOf_ne_zero ha) (by omega)
  refine ⟨s', hok, ⟨?_, h.links.congr hsame.alive hitem⟩, hitem, hsame⟩
  rw [refsOf_cons_held]
  exact hrefs'

/-- A reply gives its reference back. The object goes with the last one. -/
theorem Inv.release (h : Inv s (a :: held) leaked linked pending) :
    ∃ s', s.release a = .ok s' ∧ Inv s' held leaked linked pending ∧ SameLinks s s' ∧
      (∀ b, b ≠ a ∨ a ∈ linked → item s' b = item s b) ∧
      (a ∉ linked → a ∉ held → a ∉ leaked → item s' a = none) := by
  have hne : refsOf (a :: held) leaked linked a ≠ 0 := by
    rw [refsOf, List.count_cons_self]
    omega
  obtain ⟨s', hok, hrefs, hitem, hsame⟩ := h.refs.release hne
  have hback : Function.update (refsOf (a :: held) leaked linked) a
      (refsOf (a :: held) leaked linked a - 1) = refsOf held leaked linked := by
    funext b
    by_cases hb : b = a
    · subst hb
      rw [Function.update_self, refsOf, refsOf, List.count_cons_self]
      omega
    · rw [Function.update_of_ne hb, refsOf, refsOf, List.count_cons_of_ne (Ne.symm hb)]
  rw [hback] at hrefs
  -- An item that the cache still links, or that has leaked, outlives the reply.
  have hkeep : ∀ b, b ≠ a ∨ a ∈ linked ∨ a ∈ leaked → item s' b = item s b := by
    intro b hb
    rw [hitem, Refs.itemsAfter]
    split
    · rename_i hone
      rcases hb with hb | hmem
      · exact Function.update_of_ne hb ..
      · -- with the reference of the reply there are two
        rw [refsOf, List.count_cons_self] at hone
        rcases hmem with hmem | hmem
        · have := List.count_pos_iff.mpr hmem
          omega
        · have := List.count_pos_iff.mpr hmem
          omega
    · rfl
  have hlinkedItem : ∀ b ∈ linked, item s' b = item s b := by
    intro b hb
    by_cases hba : b = a
    · exact hkeep b (.inr (.inl (hba ▸ hb)))
    · exact hkeep b (.inl hba)
  refine ⟨s', hok, ⟨hrefs, ?_⟩, hsame, ?_, ?_⟩
  · refine ⟨h.links.linked_nodup, h.links.leaked_unlinked, ?_, ?_, ?_, ?_⟩
    · rw [hsame.alive]
      exact h.links.alive_nodup
    · intro b
      rw [hsame.alive, h.links.alive_iff]
      by_cases hb : b = a
      · subst hb
        by_cases hmem : b ∈ linked ∨ b ∈ leaked
        · rw [hkeep b (.inr hmem)]
        · simp [hmem]
      · rw [hkeep b (.inl hb)]
    -- The linked items are the same as before, and so their keys still differ.
    · intro b hb c hc it it' hit hit'
      rw [hlinkedItem b hb] at hit
      rw [hlinkedItem c hc] at hit'
      exact h.links.distinct b hb c hc it it' hit hit'
    · intro b hb it hit
      rw [hlinkedItem b hb] at hit
      exact h.links.key_lt b hb it hit
  · exact fun b hb => hkeep b (hb.imp_right .inl)
  · intro hlinked hheld hleaked
    rw [hitem, Refs.itemsAfter, if_pos, Function.update_self]
    rw [refsOf, List.count_cons_self, List.count_eq_zero.mpr hlinked, List.count_eq_zero.mpr hheld,
      List.count_eq_zero.mpr hleaked]

/-! ### `flush_all` and `expire` -/

/-- Many items are unlinked. Those that a reply holds stay in their objects. -/
structure Dropped (s s' : Cache) (held linked linked' vs : List Nat) : Prop where
  item_eq : ∀ a, item s' a = if a ∈ vs ∧ a ∉ held then none else item s a
  created : s'.created = s.created
  accounted : Accounted s linked → Accounted s' linked'

/-- Dropping nothing leaves the linked items as they are. -/
theorem Dropped.nil : Dropped s s held linked linked [] := ⟨by simp, rfl, id⟩

/-- Unlinking one item and then dropping others drops all of them. -/
theorem Dropped.cons {s₁ s₂ : Cache} {linked' vs : List Nat} (hnodup : linked.Nodup)
    (ha : a ∈ linked) (hunlinks : Unlinks s s₁ held a)
    (h : Dropped s₁ s₂ held (linked.erase a) linked' vs) :
    Dropped s s₂ held linked linked' (a :: vs) := by
  refine ⟨?_, h.created.trans hunlinks.created, fun hacc =>
    h.accounted (hunlinks.accounted hnodup ha hacc)⟩
  intro b
  rw [h.item_eq, hunlinks.item_eq]
  by_cases hb : b = a
  · subst hb
    by_cases hheld : b ∈ held <;> simp [hheld]
  · by_cases hheld : a ∈ held <;> simp [hheld, hb]

/-- The rounds of `flush_all`, over what is left of the table. -/
theorem flushLoop_spec (h : Inv s held leaked linked []) :
    ∃ s', linked.foldlM (Cache.erase false true true) s = .ok s' ∧ Inv s' held leaked [] [] ∧
      s'.table = s.table ∧ Dropped s s' held linked [] linked := by
  induction linked generalizing s with
  | nil => exact ⟨s, rfl, h, rfl, Dropped.nil⟩
  | cons a linked ih =>
    obtain ⟨s₁, hok, hinv, hunlinks, htable⟩ :=
      h.erase List.mem_cons_self false true (fun hfalse => nomatch hfalse) (by simp)
    rw [List.erase_cons_head] at hinv
    obtain ⟨s₂, hok₂, hinv₂, htable₂, hdropped⟩ := ih hinv
    refine ⟨s₂, ?_, hinv₂, htable₂.trans htable, ?_⟩
    · rw [List.foldlM_cons, hok, ok_bind]
      exact hok₂
    · apply Dropped.cons h.links.linked_nodup List.mem_cons_self hunlinks
      rw [List.erase_cons_head]
      exact hdropped

/-- `flush_all`. -/
theorem flushAll_spec (h : Inv s held leaked s.table []) :
    ∃ s', s.flushAll = .ok s' ∧ Inv s' held leaked s'.table [] ∧ s'.table = [] ∧
      Dropped s s' held s.table [] s.table := by
  have hcleared : Inv { s with table := [] } held leaked s.table [] :=
    ⟨h.refs.congr rfl rfl, h.links.congr rfl rfl⟩
  obtain ⟨s', hok, hinv, htable, hdropped⟩ := flushLoop_spec hcleared
  have hnil : s'.table = [] := htable
  refine ⟨s', hok, ?_, hnil, hdropped.item_eq, hdropped.created, hdropped.accounted⟩
  rw [hnil]
  exact hinv

/-- An item that is not linked is not missed in the timer set. -/
theorem Links.pending_tail (h : Links s leaked linked (a :: pending)) (ha : a ∉ linked)
    (ha' : a ∉ leaked) : Links s leaked linked pending := by
  refine ⟨h.linked_nodup, h.leaked_unlinked, h.alive_nodup, ?_, h.distinct, h.key_lt⟩
  intro b
  rw [h.alive_iff]
  by_cases hb : b = a
  · subst hb
    simp [ha, ha']
  · simp [hb]

/-- The rounds of `expire`. They end at an item that the table did not take. -/
theorem expireLoop_spec {exp : List Nat} (h : Inv s held leaked linked exp) (htable : s.table = linked)
    (hnodup : exp.Nodup) (hsub : ∀ a ∈ exp, a ∈ linked ∨ a ∈ leaked) :
    Sat (fun _ => leaked ≠ []) (fun s' => Inv s' held leaked s'.table [] ∧
      s'.table = linked.filter (· ∉ exp) ∧ Dropped s s' held linked s'.table exp ∧
      ∀ a ∈ exp, a ∈ linked) (exp.foldlM Cache.expireOne s) := by
  induction exp generalizing s linked with
  | nil =>
    refine ⟨htable ▸ h, by simp [htable], ?_, by simp⟩
    rw [htable]
    exact Dropped.nil
  | cons a exp ih =>
    obtain ⟨hnot, hnodup'⟩ := List.nodup_cons.mp hnodup
    rw [List.foldlM_cons]
    by_cases ha : a ∈ linked
    · obtain ⟨s₁, hok, hinv, hunlinks, htable₁⟩ :=
        h.erase ha true false (fun _ => htable ▸ ha) (by simp)
      have hnotin : a ∉ linked.erase a := fun hmem =>
        (h.links.linked_nodup.mem_erase_iff.mp hmem).1 rfl
      have hleaked : a ∉ leaked := fun hmem => h.links.leaked_unlinked a hmem ha
      have hinv₁ : Inv { s₁ with stats.expired := s₁.stats.expired + 1 } held leaked (linked.erase a)
          exp :=
        ⟨hinv.refs.congr rfl rfl, (hinv.links.pending_tail hnotin hleaked).congr rfl rfl⟩
      have htable₁' : s₁.table = linked.erase a := by
        rw [htable₁, if_pos rfl, htable]
      have hone : s.expireOne a = .ok { s₁ with stats.expired := s₁.stats.expired + 1 } := by
        rw [Cache.expireOne, hok]
        rfl
      rw [hone, ok_bind]
      have hrest := ih hinv₁ htable₁' hnodup' (by
        intro b hb
        apply (hsub b (List.mem_cons_of_mem a hb)).imp_left
        intro hmem
        apply h.links.linked_nodup.mem_erase_iff.mpr
        exact ⟨fun heq => hnot (heq ▸ hb), hmem⟩)
      apply hrest.mono
      rintro s₂ ⟨hinv₂, htable₂, hdropped, hlinked⟩
      refine ⟨hinv₂, ?_, ?_, ?_⟩
      · rw [htable₂, h.links.linked_nodup.erase_eq_filter, List.filter_filter]
        apply List.filter_congr
        intro b _
        by_cases hb : b = a <;> simp [hb]
      · apply Dropped.cons h.links.linked_nodup ha hunlinks
        exact ⟨hdropped.item_eq, hdropped.created, hdropped.accounted⟩
      · intro b hb
        rcases List.mem_cons.mp hb with rfl | hb
        · exact ha
        · exact List.mem_of_mem_erase (hlinked b hb)
    · -- the table does not have the item
      have hmem : a ∈ leaked := (hsub a List.mem_cons_self).resolve_left ha
      obtain ⟨it, -, hderef, -⟩ := h.refs.deref (refsOf_ne_zero_of_leaked hmem)
      rw [← htable] at ha
      have hunlink : s.unlinkTable true a = .error .notLinked := if_neg ha
      rw [Cache.expireOne, Cache.erase, hderef, ok_bind, hunlink]
      exact List.ne_nil_of_mem hmem

/-- `expire`. -/
theorem expire_spec (h : Inv s held leaked s.table []) (now : Int) :
    Sat (fun _ => leaked ≠ []) (fun s' => Inv s' held leaked s'.table [] ∧
      s'.table = s.table.filter (· ∉ s.due now) ∧
      Dropped s s' held s.table s'.table (s.due now) ∧ ∀ a ∈ s.due now, a ∈ s.table)
      (s.expire now) := by
  have hsub : ∀ a ∈ s.due now, a ∈ s.table ∨ a ∈ leaked := by
    intro a ha
    exact ((h.links.alive_iff a).mp (List.mem_filter.mp ha).1).2.1
  have hinv : Inv { s with alive := s.alive.filter (· ∉ s.due now) } held leaked s.table
      (s.due now) := by
    refine ⟨h.refs.congr rfl rfl, h.links.linked_nodup, h.links.leaked_unlinked,
      h.links.alive_nodup.filter _, ?_, h.links.distinct, h.links.key_lt⟩
    intro a
    show a ∈ s.alive.filter (· ∉ s.due now) ↔ _
    rw [List.mem_filter, h.links.alive_iff]
    simp only [decide_eq_true_eq, List.not_mem_nil, not_false_eq_true, true_and]
    exact and_comm
  apply (expireLoop_spec hinv rfl (h.links.alive_nodup.filter _) hsub).mono
  rintro s' ⟨hinv', htable, hdropped, hlinked⟩
  exact ⟨hinv', htable, ⟨hdropped.item_eq, hdropped.created, hdropped.accounted⟩, hlinked⟩

/-- An empty cache. -/
theorem Inv.create : Inv Cache.create [] [] [] [] := by
  refine ⟨⟨?_, ?_, List.nodup_nil, ?_⟩, ⟨List.nodup_nil, ?_, List.nodup_nil, ?_, ?_, ?_⟩⟩
  · intro a it hit
    cases hit
  · intro a
    simp [Cache.create, refsOf]
  · intro a
    simp [Cache.create, refsOf]
  · intro a ha
    cases ha
  · intro a
    simp [Cache.create]
  · intro a ha
    cases ha
  · intro a ha
    cases ha

end

/-! ### What a request is going to do -/

section

variable {hash : Bytes → UInt64} {insertion : Insertion} {answer : SlabAnswer}

/-- A store of a key that is in the table makes no item for a new key. -/
theorem fresh_of_find (h : s.find hash insertion.key = some a) : s.fresh hash answer insertion = none := by
  rw [Cache.fresh, h, if_neg]
  rintro ⟨hnone, -⟩
  cases hnone

/-- A store of a key that is not in the table makes an item. -/
theorem fresh_eq (hfind : s.find hash insertion.key = none) (hroom : answer.room ≠ .none) :
    insertion ∈ s.fresh hash answer insertion := by
  rw [Cache.fresh, hfind, if_pos ⟨rfl, hroom⟩, Option.mem_some_iff]

/-- An insertion that a request creates is among those it makes. -/
theorem mem_makes_of_fresh {r : Request} {i : Insertion}
    (hcreates : s.creates hash answer r = s.fresh hash answer insertion)
    (hi : i ∈ s.fresh hash answer insertion) : i ∈ s.makes hash answer r := by
  rw [Cache.makes, hcreates, hi, Option.some_or, Option.mem_some_iff]

/-- An insertion that overrides an item is among those a request makes. -/
theorem mem_makes_of_overrides {r : Request} {p : Nat × Insertion}
    (hp : p ∈ s.overrides hash r) (hcreates : s.creates hash answer r = none) :
    p.2 ∈ s.makes hash answer r := by
  rw [Cache.makes, hcreates, hp, Option.none_or, Option.map_some, Option.mem_some_iff]

end

end Netstar.Proofs.Memcached
