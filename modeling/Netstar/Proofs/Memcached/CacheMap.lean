import Netstar.Lib.Run
import Netstar.Proofs.Memcached.Cache
import Netstar.Spec.Memcached.CacheMap

/-!
# `Netstar.Proofs.Memcached.CacheMap`: the cache is a map

`Rep` relates a cache to a map: the linked items are the entries of the map, each under its key. The
rules for a cache that unlinks, evicts or links items become rules for `CacheMap.without` and
`CacheMap.put`, and each call is a short sequence of them.
-/

set_option autoImplicit false

namespace Netstar.Proofs.Memcached

open Netstar.Lib
open Netstar.Spec.Memcached

attribute [grind =] CacheMap.call

variable {hash : Bytes → UInt64} {s s' s₀ s₁ : Cache} {m m' : CacheMap} {a b : Nat} {it old : Item}
  {vs : List Nat} {key : Bytes} {insertion : Insertion} {answer : SlabAnswer}

/-- A linked item has the key and the entry. -/
def Maps (s : Cache) (key : Bytes) (e : Entry) : Prop :=
  ∃ a ∈ s.table, ∃ it, item s a = some it ∧ it.key = key ∧ it.entry = e

/-- The linked items know the hash of their key. -/
def Hashed (hash : Bytes → UInt64) (s : Cache) : Prop :=
  ∀ a ∈ s.table, ∀ it, item s a = some it → it.keyHash = hash it.key

/-- The cache is the map. -/
structure Rep (hash : Bytes → UInt64) (s : Cache) (m : CacheMap) : Prop where
  inv : Inv s [] [] s.table []
  hashed : Hashed hash s
  bytes : Accounted s s.table
  entries : ∀ key e, m key = some e ↔ Maps s key e

/-- A cache with the same items and links. -/
theorem Rep.of_item (h : Rep hash s m) (hinv : Inv s' [] [] s.table []) (hitem : item s' = item s)
    (htable : s'.table = s.table) (hbytes : s'.stats.bytes = s.stats.bytes) : Rep hash s' m := by
  refine ⟨?_, ?_, ?_, ?_⟩
  · rw [htable]
    exact hinv
  · rw [Hashed, htable, hitem]
    exact h.hashed
  · rw [Accounted, hbytes, htable]
    have hsize : sizeAt s' = sizeAt s := by
      funext a
      rw [sizeAt, sizeAt, hitem]
    rw [hsize]
    exact h.bytes
  · intro key e
    rw [h.entries, Maps, Maps, htable, hitem]

/-- A cache that differs in counters only. -/
theorem Rep.congr (h : Rep hash s m) (hobjects : s'.objects = s.objects) (hlru : s'.lru = s.lru)
    (htable : s'.table = s.table) (halive : s'.alive = s.alive)
    (hbytes : s'.stats.bytes = s.stats.bytes) : Rep hash s' m := by
  have hitem : item s' = item s := by
    funext a
    exact congrArg (Option.map content) (congrFun hobjects a)
  apply h.of_item _ hitem htable hbytes
  exact ⟨h.inv.refs.congr hobjects hlru, h.inv.links.congr halive hitem⟩

/-- A new cache represents the empty map. -/
theorem Rep.create (hash : Bytes → UInt64) : Rep hash Cache.create fun _ => none := by
  refine ⟨Inv.create, ?_, rfl, ?_⟩
  · intro a ha
    cases ha
  · intro key e
    simp [Maps, Cache.create]

/-! ### Search -/

/-- A linked item is found under its own key. -/
theorem Rep.hasKey (h : Rep hash s m) (ha : a ∈ s.table) (hit : item s a = some it) :
    it.hasKey hash it.key = true :=
  hasKey_iff.mpr ⟨h.hashed a ha it hit, rfl⟩

/-- The linked item with a key is its entry. -/
theorem Rep.entry (h : Rep hash s m) (ha : a ∈ s.table) (hit : item s a = some it) :
    m it.key = some it.entry :=
  (h.entries _ _).mpr ⟨a, ha, it, hit, rfl, rfl⟩

/-- `find` finds the item of the key if the map has it. -/
theorem Rep.find_cases (h : Rep hash s m) (key : Bytes) :
    (s.find hash key = none ∧ m key = none) ∨
      ∃ a it, s.find hash key = some a ∧ a ∈ s.table ∧ item s a = some it ∧ it.key = key ∧
        it.hasKey hash key = true ∧ m key = some it.entry := by
  cases hfind : s.find hash key with
  | none =>
    refine .inl ⟨rfl, ?_⟩
    cases hm : m key with
    | none => rfl
    | some e =>
      obtain ⟨a, ha, it, hit, rfl, -⟩ := (h.entries key e).mp hm
      have hnot := find_none hfind ha hit
      rw [h.hasKey ha hit] at hnot
      cases hnot
  | some a =>
    obtain ⟨ha, it, hit, hkey⟩ := find_some hfind
    have heq := (hasKey_iff.mp hkey).2
    exact .inr ⟨a, it, rfl, ha, hit, heq, hkey, heq ▸ h.entry ha hit⟩

/-- Two linked items with one key are the same. -/
theorem Rep.key_unique {it' : Item} (h : Rep hash s m) (ha : a ∈ s.table) (hb : b ∈ s.table)
    (hit : item s a = some it) (hit' : item s b = some it') (heq : it.key = it'.key) : a = b :=
  h.inv.links.key_unique ha hb hit hit' (h.hasKey ha hit) (heq ▸ h.hasKey hb hit')

/-! ### Links -/

/-- Some items leave the table, and their keys leave the map. -/
theorem Rep.drop (h : Rep hash s m) (vs : List Nat) {keys : List Bytes}
    (hinv : Inv s' [] [] s'.table []) (htable : ∀ a, a ∈ s'.table ↔ a ∈ s.table ∧ a ∉ vs)
    (hitem : ∀ a, a ∉ vs → item s' a = item s a) (hbytes : Accounted s' s'.table)
    (hkeys : ∀ a ∈ s.table, ∀ it, item s a = some it → (it.key ∈ keys ↔ a ∈ vs)) :
    Rep hash s' (m.without keys) := by
  refine ⟨hinv, ?_, hbytes, ?_⟩
  · intro a ha it hit
    obtain ⟨ha, hvs⟩ := (htable a).mp ha
    rw [hitem a hvs] at hit
    exact h.hashed a ha it hit
  · intro key e
    rw [CacheMap.without]
    constructor
    · intro hm
      split at hm
      · cases hm
      · rename_i hkey
        obtain ⟨a, ha, it, hit, rfl, he⟩ := (h.entries key e).mp hm
        have hvs : a ∉ vs := fun hmem => hkey ((hkeys a ha it hit).mpr hmem)
        exact ⟨a, (htable a).mpr ⟨ha, hvs⟩, it, by rw [hitem a hvs]; exact hit, rfl, he⟩
    · rintro ⟨a, ha, it, hit, rfl, rfl⟩
      obtain ⟨ha, hvs⟩ := (htable a).mp ha
      rw [hitem a hvs] at hit
      rw [if_neg (fun hmem => hvs ((hkeys a ha it hit).mp hmem))]
      exact h.entry ha hit

/-- The keys of the items in the objects. -/
def keysAt (s : Cache) (vs : List Nat) : List Bytes := vs.filterMap fun a => (item s a).map Item.key

/-- A linked item's key is among the keys of some linked items exactly when the item is one of them.
-/
theorem Rep.mem_keysAt (h : Rep hash s m) (hvs : ∀ a ∈ vs, a ∈ s.table) (ha : a ∈ s.table)
    (hit : item s a = some it) : it.key ∈ keysAt s vs ↔ a ∈ vs := by
  constructor
  · intro hmem
    obtain ⟨b, hb, hkey⟩ := List.mem_filterMap.mp hmem
    obtain ⟨it', hit', heq⟩ := Option.map_eq_some_iff.mp hkey
    rw [h.key_unique ha (hvs b hb) hit hit' heq.symm]
    exact hb
  · intro hmem
    exact List.mem_filterMap.mpr ⟨a, hmem, by rw [hit]; rfl⟩

/-- Evicted items. -/
theorem Rep.evicted (h : Rep hash s m) (hevicted : Evicted s s' [] [] vs) :
    Rep hash s' (m.without (keysAt s vs)) := by
  apply h.drop vs hevicted.inv
  · intro a
    rw [hevicted.table]
    simp
  · intro a ha
    rw [hevicted.item_eq, if_neg ha]
  · exact hevicted.accounted h.bytes
  · exact fun a ha it hit => h.mem_keysAt (fun b hb => (hevicted.victims b hb).1) ha hit

/-- One item is unlinked. -/
theorem Rep.unlinked (h : Rep hash s m) (ha : a ∈ s.table) (hit : item s a = some it)
    (hinv : Inv s' [] [] s'.table []) (hunlinks : Unlinks s s' [] a)
    (htable : s'.table = s.table.erase a) : Rep hash s' (m.without [it.key]) := by
  have hmem : ∀ b, b ∈ s'.table ↔ b ∈ s.table ∧ b ∉ [a] := by
    intro b
    rw [htable, h.inv.links.linked_nodup.mem_erase_iff, List.mem_singleton]
    exact and_comm
  apply h.drop [a] hinv hmem
  · intro b hb
    exact hunlinks.item_of_ne (fun heq => hb (List.mem_singleton.mpr heq))
  · rw [htable]
    exact hunlinks.accounted h.inv.links.linked_nodup ha h.bytes
  · intro b hb it' hit'
    rw [List.mem_singleton, List.mem_singleton]
    constructor
    · exact fun heq => h.key_unique hb ha hit' hit heq
    · rintro rfl
      rw [hit] at hit'
      cases hit'
      rfl

/-- A new item is linked. -/
theorem Rep.placed (h : Rep hash s m) (hplaced : Placed s s' [] [] b it insertion)
    (hhash : it.keyHash = hash it.key) (hsize : it.size = insertion.size) :
    Rep hash s' (Function.update m it.key (some it.entry)) := by
  -- The memory of the new item was unused, so no other item of the table changes.
  have hb : b ∉ s.table := (h.inv.unused hplaced.unused).2.1
  have hitem : ∀ a ∈ s.table, item s' a = item s a := by
    intro a ha
    rw [hplaced.item_eq]
    apply Function.update_of_ne
    rintro rfl
    exact hb ha
  have hself : item s' b = some (content it) := by
    rw [hplaced.item_eq, Function.update_self]
  have hmem : ∀ a, a ∈ s'.table ↔ a = b ∨ a ∈ s.table := by
    intro a
    rw [hplaced.table, List.mem_cons]
  refine ⟨hplaced.inv, ?_, ?_, ?_⟩
  · intro a ha it' hit'
    rcases (hmem a).mp ha with rfl | ha
    · rw [hself] at hit'
      cases hit'
      exact hhash
    · rw [hitem a ha] at hit'
      exact h.hashed a ha it' hit'
  · have hsum : s.table.map (sizeAt s') = s.table.map (sizeAt s) := by
      apply List.map_congr_left
      intro a ha
      rw [sizeAt, sizeAt, hitem a ha]
    have hnew : sizeAt s' b = it.size := by
      rw [sizeAt, hself]
      rfl
    rw [Accounted, hplaced.bytes, h.bytes, hplaced.table, List.map_cons, List.sum_cons, hsum, hnew,
      hsize, UInt64.ofNat_add, UInt64.add_comm]
  · intro key e
    by_cases hkey : key = it.key
    · -- the new item is the only one with its key
      subst hkey
      rw [Function.update_self]
      constructor
      · intro he
        cases he
        exact ⟨b, (hmem b).mpr (.inl rfl), content it, hself, rfl, rfl⟩
      · rintro ⟨a, ha, it', hit', hkey', rfl⟩
        have hab : a = b := by
          apply hplaced.inv.links.distinct a ha b ((hmem b).mpr (.inl rfl)) it' (content it) hit' hself
          have hhash' : it'.keyHash = hash it'.key := by
            rcases (hmem a).mp ha with rfl | ha
            · rw [hself] at hit'
              cases hit'
              exact hhash
            · rw [hitem a ha] at hit'
              exact h.hashed a ha it' hit'
          rw [Item.same, Bool.and_eq_true, beq_iff_eq, beq_iff_eq]
          exact ⟨by rw [hhash', hkey']; exact hhash.symm, hkey'⟩
        subst hab
        rw [hself] at hit'
        cases hit'
        rfl
    · rw [Function.update_of_ne hkey, h.entries]
      constructor
      · rintro ⟨a, ha, it', hit', rfl, rfl⟩
        exact ⟨a, (hmem a).mpr (.inr ha), it', by rw [hitem a ha]; exact hit', rfl, rfl⟩
      · rintro ⟨a, ha, it', hit', rfl, rfl⟩
        rcases (hmem a).mp ha with rfl | ha
        · rw [hself] at hit'
          cases hit'
          exact absurd rfl hkey
        · rw [hitem a ha] at hit'
          exact ⟨a, ha, it', hit', rfl, rfl⟩

/-! ### Stores -/

/-- An item in an LRU list is linked. -/
theorem Rep.lru_linked (h : Rep hash s m) (ha : a ∈ s.lru) : a ∈ s.table := by
  have hone := (h.inv.refs.lru_iff a).mp ha
  rw [refsOf, List.count_nil] at hone
  exact List.count_pos_iff.mp (by omega)

/-- A cache that represents a map refuses a request only for victims that were not on offer. -/
theorem Rep.refused {e : CacheFault} (h : Rep hash s m) (he : Refused s e) : e = .notOffered := by
  rcases he with hoffered | ⟨-, b, hb, hnot⟩
  · exact hoffered
  · exact absurd (h.lru_linked hb) hnot

/-- A new item, read as an entry, is the entry of the insertion. -/
theorem entry_create {version : UInt64} {serial : Nat} (hkept : insertion.Kept) :
    (Item.create hash insertion version serial).entry = CacheMap.entry insertion version := by
  rw [Item.entry, create_value, create_asciiPrefix hkept]
  rfl

/-- A new item of a store is linked, and the map gets its entry. -/
theorem Rep.placed_create {version : UInt64} {serial : Nat} (h : Rep hash s m)
    (hkept : insertion.Kept)
    (hplaced : Placed s s' [] [] b (Item.create hash insertion version serial) insertion) :
    Rep hash s' (Function.update m insertion.key (some (CacheMap.entry insertion version))) := by
  have hnew := h.placed hplaced (by rw [create_key hkept]; rfl)
    (create_size hkept.key_le hkept.prefix_le)
  rw [create_key hkept, entry_create hkept] at hnew
  exact hnew

/-- `add_new` of a key that the map does not have. -/
theorem Rep.addNew (h : Rep hash s m) (hfind : s.find hash insertion.key = none)
    (hkept : insertion.Kept) (hroom : answer.room ≠ .none) :
    Sat (· = .notOffered) (fun r => (∃ b, r.2 = some b) ∧
        Rep hash r.1 (m.put (keysAt s answer.victims) insertion.key (CacheMap.entry insertion 1)))
      (s.addNew hash answer insertion) := by
  rcases (addNew_spec h.inv answer).cases with ⟨e, herror, he⟩ | ⟨⟨s', r⟩, hok, s₁, hevicted, hres⟩
  · rw [herror]
    exact h.refused he
  · rw [hok]
    cases r with
    | none => exact absurd hres.2 hroom
    | some b =>
      refine ⟨⟨b, rfl⟩, (h.evicted hevicted).placed_create hkept (hres.1 ?_)⟩
      -- an equal item would have the key
      intro a ha it' hit'
      rw [hevicted.table, List.mem_filter] at ha
      rw [hevicted.item_eq, if_neg (by simpa using ha.2)] at hit'
      have hnot := find_none hfind ha.1 hit'
      by_contra hsame
      rw [Bool.not_eq_false, Item.same, Bool.and_eq_true, beq_iff_eq, beq_iff_eq, create_key hkept]
        at hsame
      rw [hasKey_iff.mpr ⟨hsame.1.symm, hsame.2.symm⟩] at hnot
      cases hnot

/-- Without the old item the evicted keys are the same. -/
theorem keysAt_unlinked (hunlinks : Unlinks s s₀ [] a) (ha : a ∉ vs) : keysAt s₀ vs = keysAt s vs := by
  apply List.filterMap_congr
  intro b hb
  rw [hunlinks.item_of_ne (fun heq => ha (heq ▸ hb))]

/-- The old entry of the key does not matter for a map that gets a new one. -/
theorem put_without (m : CacheMap) (keys : List Bytes) (key : Bytes) (e : Entry) :
    (m.without [key]).put keys key e = m.put keys key e := by
  funext k
  by_cases hk : k = key
  · simp [CacheMap.put, hk]
  · simp [CacheMap.put, CacheMap.without, hk]

/-- `add_overriding` of the item with the key. -/
theorem Rep.addOverriding (h : Rep hash s m) (ha : a ∈ s.table) (hold : item s a = some old)
    (hkey : old.hasKey hash insertion.key = true) (hkept : insertion.Kept)
    (hroom : answer.room ≠ .none) :
    Sat (· = .notOffered) (fun r => (∃ b, r.2 = some b ∧ b ∈ r.1.table ∧
          ∃ it, item r.1 b = some it ∧ it.value = insertion.data) ∧
        Rep hash r.1 (m.put (keysAt s answer.victims) insertion.key
          (CacheMap.entry insertion (old.version + 1))))
      (s.addOverriding hash answer a insertion) := by
  rcases (addOverriding_spec h.inv answer ha hold hkey).cases with
    ⟨e, herror, he⟩ | ⟨⟨s', r⟩, hok, s₀, s₁, hinv, hunlinks, htable, hevicted, hres⟩
  · rw [herror]
    rcases he with (hoffered | ⟨-, ⟨b, hb, hnot⟩ | hheld⟩) | ⟨-, -, hstays⟩
    · exact hoffered
    · -- All items in the LRU lists are linked, and no reply holds the old item.
      exact absurd (h.lru_linked hb) hnot
    · cases hheld
    · exact absurd hstays (not_stays_of_kept hkept h.inv ha hold hkey)
  · rw [hok]
    cases r with
    | none => exact absurd hres.2 hroom
    | some b =>
      -- The old item is not linked any more when the allocator evicts.
      have hnotin : a ∉ answer.victims := by
        intro hmem
        have hlinked := (hevicted.victims a hmem).1
        rw [htable] at hlinked
        exact (h.inv.links.linked_nodup.mem_erase_iff.mp hlinked).1 rfl
      have hself : item s' b = some (Item.create hash insertion (old.version + 1) s.created) := by
        rw [hres.item_eq, Function.update_self]
        exact congrArg some content_create
      refine ⟨⟨b, rfl, ?_, _, hself, create_value⟩, ?_⟩
      · rw [hres.table]
        exact List.mem_cons_self
      · have hrep := ((h.unlinked ha hold hinv hunlinks htable).evicted hevicted).placed_create hkept hres
        rw [(hasKey_iff.mp hkey).2, keysAt_unlinked hunlinks hnotin] at hrep
        rw [← put_without]
        exact hrep

/-- A reply takes a reference and gives it back. -/
theorem Rep.addRef_release (h : Rep hash s m) (ha : a ∈ s.table) :
    ∃ s₁ s₂, s.addRef a = .ok s₁ ∧ item s₁ = item s ∧ s₁.release a = .ok s₂ ∧ Rep hash s₂ m := by
  obtain ⟨s₁, hadd, hinv, hitem, hsame⟩ := h.inv.addRef ha (by simp)
  obtain ⟨s₂, hrelease, hinv₂, hsame₂, hkeep, -⟩ := hinv.release
  refine ⟨s₁, s₂, hadd, hitem, hrelease, h.of_item hinv₂ ?_ ?_ ?_⟩
  · rw [← hitem]
    funext b
    exact hkeep b (.inr ha)
  · exact hsame₂.table.trans hsame.table
  · rw [hsame₂.stats, hsame.stats]

/-! ### Calls -/

/-- A call does to the cache and to the map the same. -/
def Agrees (hash : Bytes → UInt64) (m : CacheMap × CacheResult)
    (r : Except CacheFault (Cache × CacheResult)) : Prop :=
  Sat (· = .notOffered) (fun r => r.2 = m.2 ∧ Rep hash r.1 m.1) r

/-- A call of the cache evicts what the allocator chooses. -/
theorem evictedKeys_eq (s : Cache) (answer : SlabAnswer) {c : CacheCall} (hc : ∀ a, c ≠ .evict a) :
    s.evictedKeys answer c = keysAt s answer.victims := by
  have hkeys : (answer.victims.filterMap fun a => (s.objects a).map Item.key) =
      keysAt s answer.victims := by
    apply List.filterMap_congr
    intro a _
    rw [item, Option.map_map]
    rfl
  rw [← hkeys]
  cases c with
  | evict a => exact absurd rfl (hc a)
  | _ => rfl

/-- Counting on a value that is no number leaves the map alone. -/
theorem count_notNumeric {keys : List Bytes} {g : Nat → Nat} {e : Entry} (hm : m key = some e)
    (hint : integral e.value = none) : m.count keys key g = (m, .notNumeric) := by
  rw [CacheMap.count, hm]
  simp only [hint]

/-- Counting on a number writes the result under the key. -/
theorem count_numeric {keys : List Bytes} {g : Nat → Nat} {e : Entry} {value : UInt64}
    (hm : m key = some e) (hint : integral e.value = some value) :
    m.count keys key g =
      (m.put keys key
          { e with value := CacheMap.decimal (g value.toNat), version := e.version + 1 },
        .counted (CacheMap.decimal (g value.toNat))) := by
  rw [CacheMap.count, hm]
  simp only [hint]

section

variable (h : Rep hash s m) (hroom : answer.room ≠ .none)
include h hroom

/-- The end of `incr` and `decr`, with the reply. -/
theorem Rep.count (ha : a ∈ s.table) (hit : item s a = some it) (hkey : it.hasKey hash key = true)
    (f : UInt64 → UInt64) (g : Nat → Nat) (hfg : ∀ v, (f v).toNat = g v.toNat)
    (hkept : ∀ p ∈ s.counts hash key f, p.2.Kept) (hfind : s.find hash key = some a) :
    Agrees hash (m.count (keysAt s answer.victims) key g)
      (s.count hash answer key a f >>= Cache.reply) := by
  have heq := (hasKey_iff.mp hkey).2
  have hm : m key = some it.entry := heq ▸ h.entry ha hit
  obtain ⟨it₀, hobj, hderef, -⟩ := h.inv.refs.deref (refsOf_ne_zero ha)
  have hcontent : content it₀ = it := by
    rw [item_of_objects hobj] at hit
    exact Option.some.inj hit
  have hvalue : it₀.dataAsIntegral = integral it.entry.value := by
    rw [← hcontent]
    rfl
  rw [Cache.count, hderef, ok_bind, hvalue]
  cases hint : integral it.entry.value with
  | none =>
    -- The value is no number: the reference is taken and given back, and the map stays.
    obtain ⟨s₁, s₂, hadd, -, hrelease, hrep⟩ := h.addRef_release ha
    rw [count_notNumeric hm hint]
    show Sat _ _ ((s.addRef a >>= _) >>= _)
    rw [hadd]
    show Sat _ _ (s₁.release a >>= _)
    rw [hrelease]
    exact ⟨rfl, hrep⟩
  | some value =>
    rw [count_numeric hm hint]
    let new := Cache.renewed key it₀ (f value) (Cache.toSstring_length_lt _)
    have hnew : new.Kept := by
      refine hkept (a, new) ?_
      simp [Cache.counts, hfind, hobj, hvalue, hint, new]
    have hdata : toSstring (f value) = CacheMap.decimal (g value.toNat) := by
      rw [toSstring, hfg]
      rfl
    have hentry : CacheMap.entry new (it.version + 1) =
        { it.entry with
          value := CacheMap.decimal (g value.toNat)
          version := it.entry.version + 1 } := by
      rw [← hdata, ← hcontent]
      rfl
    show Sat _ _ ((s.addOverriding hash answer a new >>= _) >>= _)
    have hkey' : it.hasKey hash new.key = true := hkey
    rcases (h.addOverriding ha hit hkey' hnew hroom).cases with
      ⟨e, herror, he⟩ | ⟨⟨s', _⟩, hok, ⟨b, rfl, hb, it', hit', hread⟩, hrep⟩
    · rw [herror]
      exact he
    -- The reply reads the new number from the item in the cache, under a reference of its own.
    · obtain ⟨s₁, s₂, hadd, hitem, hrelease, hrep₂⟩ := hrep.addRef_release hb
      obtain ⟨it₁, hobj₁, rfl⟩ := Option.map_eq_some_iff.mp (hitem ▸ hit' : item s₁ b = some it')
      have hderef₁ : s₁.deref b = .ok it₁ := by
        rw [Cache.deref, hobj₁]
      rw [hok]
      show Sat _ _ ((s'.addRef b >>= _) >>= _)
      rw [hadd]
      show Sat _ _ (s₁.deref b >>= _)
      rw [hderef₁]
      show Sat _ _ (s₁.release b >>= _)
      rw [hrelease, ← hentry]
      refine ⟨?_, hrep₂⟩
      rw [← hdata]
      exact congrArg CacheResult.counted hread

/-- `set`. -/
theorem Rep.set (hkept : ∀ i ∈ s.makes hash answer (.call (.set insertion)), i.Kept) :
    Agrees hash (m.call (keysAt s answer.victims) (.set insertion))
      (s.call hash answer (.set insertion)) := by
  show Sat _ _ ((s.set hash answer insertion).map _)
  rcases h.find_cases insertion.key with
    ⟨hfind, hm⟩ | ⟨a, it, hfind, ha, hit, -, hkey, hm⟩
  · simp only [CacheMap.call, hm, Cache.set, hfind]
    have hnew := hkept insertion (mem_makes_of_fresh rfl (fresh_eq hfind hroom))
    rcases (h.addNew hfind hnew hroom).cases with
      ⟨e, herror, he⟩ | ⟨⟨s', _⟩, hok, ⟨b, rfl⟩, hrep⟩
    · rw [herror]
      exact he
    · rw [hok]
      exact ⟨rfl, hrep.congr rfl rfl rfl rfl rfl⟩
  · simp only [CacheMap.call, hm, Cache.set, hfind]
    have hover : (a, insertion) ∈ s.overrides hash (.call (.set insertion)) := by
      rw [Cache.overrides, hfind, Option.map_some, Option.mem_some_iff]
    have hnew := hkept insertion (mem_makes_of_overrides hover (fresh_of_find hfind))
    rcases (h.addOverriding ha hit hkey hnew hroom).cases with
      ⟨e, herror, he⟩ | ⟨⟨s', _⟩, hok, ⟨b, rfl, -⟩, hrep⟩
    · rw [herror]
      exact he
    · rw [hok]
      exact ⟨rfl, hrep.congr rfl rfl rfl rfl rfl⟩

/-- `add`. -/
theorem Rep.add (hkept : ∀ i ∈ s.makes hash answer (.call (.add insertion)), i.Kept) :
    Agrees hash (m.call (keysAt s answer.victims) (.add insertion))
      (s.call hash answer (.add insertion)) := by
  show Sat _ _ ((s.add hash answer insertion).map _)
  rcases h.find_cases insertion.key with
    ⟨hfind, hm⟩ | ⟨a, it, hfind, ha, hit, -, hkey, hm⟩
  · simp only [CacheMap.call, hm, Cache.add, hfind]
    have hrep : Rep hash { s with stats.setAdds := s.stats.setAdds + 1 } m :=
      h.congr rfl rfl rfl rfl rfl
    have hnew := hkept insertion (mem_makes_of_fresh rfl (fresh_eq hfind hroom))
    rcases (hrep.addNew hfind hnew hroom).cases with
      ⟨e, herror, he⟩ | ⟨⟨s', _⟩, hok, ⟨b, rfl⟩, hrep⟩
    · rw [herror]
      exact he
    · rw [hok]
      exact ⟨rfl, hrep⟩
  · simp only [CacheMap.call, hm, Cache.add, hfind]
    exact ⟨rfl, h⟩

/-- `replace`. -/
theorem Rep.replace (hkept : ∀ i ∈ s.makes hash answer (.call (.replace insertion)), i.Kept) :
    Agrees hash (m.call (keysAt s answer.victims) (.replace insertion))
      (s.call hash answer (.replace insertion)) := by
  show Sat _ _ ((s.replace hash answer insertion).map _)
  rcases h.find_cases insertion.key with
    ⟨hfind, hm⟩ | ⟨a, it, hfind, ha, hit, -, hkey, hm⟩
  · simp only [CacheMap.call, hm, Cache.replace, hfind]
    exact ⟨rfl, h⟩
  · simp only [CacheMap.call, hm, Cache.replace, hfind]
    have hrep : Rep hash { s with stats.setReplaces := s.stats.setReplaces + 1 } m :=
      h.congr rfl rfl rfl rfl rfl
    have hover : (a, insertion) ∈ s.overrides hash (.call (.replace insertion)) := by
      rw [Cache.overrides, hfind, Option.map_some, Option.mem_some_iff]
    have hnew := hkept insertion (mem_makes_of_overrides hover rfl)
    rcases (hrep.addOverriding ha hit hkey hnew hroom).cases with
      ⟨e, herror, he⟩ | ⟨⟨s', _⟩, hok, ⟨b, rfl, -⟩, hrep⟩
    · rw [herror]
      exact he
    · rw [hok]
      exact ⟨rfl, hrep⟩

/-- `cas`. -/
theorem Rep.cas (version : UInt64)
    (hkept : ∀ i ∈ s.makes hash answer (.call (.cas insertion version)), i.Kept) :
    Agrees hash (m.call (keysAt s answer.victims) (.cas insertion version))
      (s.call hash answer (.cas insertion version)) := by
  show Sat _ _ ((s.cas hash answer insertion version).map _)
  rcases h.find_cases insertion.key with
    ⟨hfind, hm⟩ | ⟨a, it, hfind, ha, hit, -, hkey, hm⟩
  · simp only [CacheMap.call, hm, Cache.cas, hfind]
    exact ⟨rfl, h.congr rfl rfl rfl rfl rfl⟩
  · obtain ⟨it₀, hobj, hderef, -⟩ := h.inv.refs.deref (refsOf_ne_zero ha)
    have hversion : it₀.version = it.entry.version := by
      rw [item_of_objects hobj] at hit
      cases hit
      rfl
    simp only [CacheMap.call, hm, Cache.cas, hfind]
    rw [hderef, ok_bind, hversion]
    split
    · exact ⟨rfl, h.congr rfl rfl rfl rfl rfl⟩
    · -- The version is the one that the client sent.
      rename_i hsame
      have hrep : Rep hash { s with stats.casHits := s.stats.casHits + 1 } m :=
        h.congr rfl rfl rfl rfl rfl
      have hover : (a, insertion) ∈ s.overrides hash (.call (.cas insertion version)) := by
        rw [Cache.overrides, hfind, Option.filter_some, hobj, Option.any_some, if_pos, Option.map_some,
          Option.mem_some_iff]
        rw [hversion, not_not.mp hsame, beq_self_eq_true]
      have hnew := hkept insertion (mem_makes_of_overrides hover rfl)
      rcases (hrep.addOverriding ha hit hkey hnew hroom).cases with
        ⟨e, herror, he⟩ | ⟨⟨s', _⟩, hok, ⟨b, rfl, -⟩, hrep⟩
      · show Sat _ _ (Except.map _ (Cache.addOverriding .. >>= _))
        rw [herror]
        exact he
      · show Sat _ _ (Except.map _ (Cache.addOverriding .. >>= _))
        rw [hok]
        exact ⟨rfl, hrep⟩

/-- `incr`. -/
theorem Rep.incr (key : Bytes) (delta : UInt64)
    (hkept : ∀ i ∈ s.makes hash answer (.call (.incr key delta)), i.Kept) :
    Agrees hash (m.call (keysAt s answer.victims) (.incr key delta))
      (s.call hash answer (.incr key delta)) := by
  show Sat _ _ (s.incr hash answer key delta >>= _)
  rcases h.find_cases key with
    ⟨hfind, hm⟩ | ⟨a, it, hfind, ha, hit, -, hkey, -⟩
  · simp only [CacheMap.call, CacheMap.count, hm, Cache.incr, hfind]
    exact ⟨rfl, h.congr rfl rfl rfl rfl rfl⟩
  · simp only [Cache.incr, hfind]
    have hrep : Rep hash { s with stats.incrHits := s.stats.incrHits + 1 } m :=
      h.congr rfl rfl rfl rfl rfl
    refine hrep.count hroom ha hit hkey _ _ (fun v => UInt64.toNat_add v delta) (fun p hp => ?_) hfind
    exact hkept p.2 (mem_makes_of_overrides hp rfl)

/-- `decr`. -/
theorem Rep.decr (key : Bytes) (delta : UInt64)
    (hkept : ∀ i ∈ s.makes hash answer (.call (.decr key delta)), i.Kept) :
    Agrees hash (m.call (keysAt s answer.victims) (.decr key delta))
      (s.call hash answer (.decr key delta)) := by
  show Sat _ _ (s.decr hash answer key delta >>= _)
  rcases h.find_cases key with
    ⟨hfind, hm⟩ | ⟨a, it, hfind, ha, hit, -, hkey, -⟩
  · simp only [CacheMap.call, CacheMap.count, hm, Cache.decr, hfind]
    exact ⟨rfl, h.congr rfl rfl rfl rfl rfl⟩
  · simp only [Cache.decr, hfind]
    have hrep : Rep hash { s with stats.decrHits := s.stats.decrHits + 1 } m :=
      h.congr rfl rfl rfl rfl rfl
    refine hrep.count hroom ha hit hkey _ _ (sub_min_toNat · delta) (fun p hp => ?_) hfind
    exact hkept p.2 (mem_makes_of_overrides hp rfl)

end

/-- `remove`. -/
theorem Rep.remove (h : Rep hash s m) (key : Bytes) (keys : List Bytes) :
    Agrees hash (m.call keys (.remove key)) (s.call hash answer (.remove key)) := by
  show Sat _ _ ((s.remove hash key).map _)
  rcases h.find_cases key with ⟨hfind, hm⟩ | ⟨a, it, hfind, ha, hit, rfl, -, hm⟩
  · have hsame : m.without [key] = m := by
      funext k
      by_cases hk : k = key
      · simp [CacheMap.without, hk, hm]
      · simp [CacheMap.without, hk]
    simp only [CacheMap.call, hm, Cache.remove, hfind, hsame]
    exact ⟨rfl, h.congr rfl rfl rfl rfl rfl⟩
  · have hrep : Rep hash { s with stats.deleteHits := s.stats.deleteHits + 1 } m :=
      h.congr rfl rfl rfl rfl rfl
    obtain ⟨s', herase, hinv, hunlinks, htable⟩ := hrep.inv.erase ha true true (fun _ => ha) (by simp)
    rw [if_pos rfl] at htable
    rw [← htable] at hinv
    simp only [CacheMap.call, hm, Cache.remove, hfind]
    rw [herase]
    exact ⟨rfl, hrep.unlinked ha hit hinv hunlinks htable⟩

/-- `flush_all`. -/
theorem Rep.flushAll (h : Rep hash s m) (keys : List Bytes) :
    Agrees hash (m.call keys .flushAll) (s.call hash answer .flushAll) := by
  obtain ⟨s', hok, hinv, htable, hdropped⟩ := flushAll_spec h.inv
  show Sat _ _ (s.flushAll.map _)
  rw [hok]
  refine ⟨rfl, hinv, ?_, ?_, ?_⟩
  · intro a ha
    rw [htable] at ha
    cases ha
  · rw [htable]
    exact hdropped.accounted h.bytes
  · intro key e
    constructor
    · intro hm
      cases hm
    · rintro ⟨a, ha, -⟩
      rw [htable] at ha
      cases ha

/-- The items that are due. -/
theorem Rep.mem_due (h : Rep hash s m) {now : Int} (ha : a ∈ s.table) (hit : item s a = some it) :
    a ∈ s.due now ↔ it.entry.expiry.any (· ≤ now) = true := by
  obtain ⟨it₀, hobj, rfl⟩ := Option.map_eq_some_iff.mp hit
  have halive : a ∈ s.alive ↔ it₀.expiry.isSome = true := by
    rw [h.inv.links.alive_iff, hit]
    simp only [List.not_mem_nil, not_false_eq_true, or_false, Option.any_some, true_and]
    exact ⟨fun hmem => hmem.2, fun hexpiry => ⟨ha, hexpiry⟩⟩
  rw [Cache.due, List.mem_filter, halive, hobj, Option.any_some]
  show _ ↔ it₀.expiry.any (· ≤ now) = true
  cases it₀.expiry with
  | none => simp
  | some t => simp

/-- `expire`. -/
theorem Rep.expire (h : Rep hash s m) (now : Int) (keys : List Bytes) :
    Agrees hash (m.call keys (.expire now)) (s.call hash answer (.expire now)) := by
  obtain ⟨e, -, hleaked⟩ | ⟨s', hok, hinv, htable, hdropped, hvs⟩ := (expire_spec h.inv now).cases
  · exact absurd rfl hleaked
  -- Taking the keys of the due items out is dropping the entries that expired.
  have hmap : m.without (keysAt s (s.due now)) =
      fun k => (m k).filter fun e => !e.expiry.any (· ≤ now) := by
    funext k
    cases hm : m k with
    | none => simp [CacheMap.without, hm]
    | some e =>
      obtain ⟨a, ha, it, hit, rfl, rfl⟩ := (h.entries k e).mp hm
      rw [CacheMap.without, hm]
      by_cases hdue : a ∈ s.due now
      · rw [if_pos ((h.mem_keysAt hvs ha hit).mpr hdue), Option.filter_some]
        simp [(h.mem_due ha hit).mp hdue]
      · rw [if_neg (fun hmem => hdue ((h.mem_keysAt hvs ha hit).mp hmem)), Option.filter_some]
        have hnot := mt (h.mem_due ha hit).mpr hdue
        simp [hnot]
  show Sat _ _ ((s.expire now).map _)
  rw [hok]
  refine ⟨rfl, ?_⟩
  show Rep hash s' fun k => (m k).filter fun e => !e.expiry.any (· ≤ now)
  rw [← hmap]
  apply h.drop (s.due now) hinv
  · intro a
    rw [htable]
    simp
  · intro a ha
    rw [hdropped.item_eq, if_neg (fun hmem => ha hmem.1)]
  · exact hdropped.accounted h.bytes
  · exact fun a ha it hit => h.mem_keysAt hvs ha hit

/-- An eviction. -/
theorem Rep.evict (h : Rep hash s m) (a : Nat) :
    Agrees hash (m.call (s.evictedKeys answer (.evict a)) (.evict a))
      (s.call hash answer (.evict a)) := by
  show Sat _ _ ((s.evict a).map _)
  rcases evict_cases h.inv a with
    ⟨e, herror, he⟩ | ⟨s', hok, hinv, hunlinks, htable, ha, -⟩
  · rw [herror]
    exact h.refused he
  · obtain ⟨it, hobj, -, -⟩ := h.inv.refs.deref (refsOf_ne_zero ha)
    rw [hok]
    refine ⟨rfl, ?_⟩
    show Rep hash s' (m.without ((s.objects a).map Item.key).toList)
    rw [hobj]
    have hrep := h.unlinked ha (item_of_objects hobj) hinv hunlinks htable
    exact hrep

/-- Every call. -/
theorem Rep.call (h : Rep hash s m) (hroom : answer.room ≠ .none) {c : CacheCall}
    (hkept : ∀ i ∈ s.makes hash answer (.call c), i.Kept) :
    Agrees hash (m.call (s.evictedKeys answer c) c) (s.call hash answer c) := by
  cases c with
  | set insertion =>
    rw [evictedKeys_eq s answer (by simp)]
    exact h.set hroom hkept
  | add insertion =>
    rw [evictedKeys_eq s answer (by simp)]
    exact h.add hroom hkept
  | replace insertion =>
    rw [evictedKeys_eq s answer (by simp)]
    exact h.replace hroom hkept
  | cas insertion version =>
    rw [evictedKeys_eq s answer (by simp)]
    exact h.cas hroom version hkept
  | incr key delta =>
    rw [evictedKeys_eq s answer (by simp)]
    exact h.incr hroom key delta hkept
  | decr key delta =>
    rw [evictedKeys_eq s answer (by simp)]
    exact h.decr hroom key delta hkept
  | remove key => exact h.remove key _
  | flushAll => exact h.flushAll _
  | expire now => exact h.expire now _
  | evict a => exact h.evict a

/-! ### Runs -/

/-- The cache of a session is its map, and the answers were the same. -/
structure Follows (hash : Bytes → UInt64) (s : MapSession) : Prop where
  rep : Rep hash s.cache s.map
  fault : s.fault = none
  results : ∀ r ∈ s.last, r.1 = r.2

/-- Every step that keeps the fields of its insertions apart is followed by the map. -/
theorem Follows.step {s t : MapSession} (h : Follows hash s) {e : SlabAnswer × CacheCall}
    (hkeeps : s.Keeps hash e) (hstep : s.step hash e = some t) : Follows hash t := by
  rw [MapSession.step] at hstep
  split at hstep
  · cases hstep
  · rename_i henabled
    rw [not_or, not_or, not_not] at henabled
    rcases (h.rep.call henabled.2.1 hkeeps).cases with
      ⟨f, herror, rfl⟩ | ⟨⟨cache, result⟩, hok, hresult, hrep⟩
    · rw [herror] at hstep
      cases hstep
    · rw [hok] at hstep
      cases hstep
      refine ⟨hrep, h.fault, ?_⟩
      intro r hr
      cases hr
      exact hresult

/-- The objects in use are the linked ones. -/
theorem Rep.linked_iff (h : Rep hash s m) : (s.objects a).isSome ↔ a ∈ s.table := by
  rw [h.inv.refs.live, refsOf, List.count_nil, Nat.add_zero, ← Nat.pos_iff_ne_zero,
    List.count_pos_iff]

/-- A session followed by the map answers as the map does. -/
theorem Follows.correct {s : MapSession} (h : Follows hash s) : s.Correct hash := by
  -- Between the calls every object is linked.
  have hlinked : ∀ a it, s.cache.objects a = some it → a ∈ s.cache.table := by
    intro a it hobj
    apply h.rep.linked_iff.mp
    rw [hobj]
    rfl
  refine ⟨h.fault, h.results, ?_, ?_, ?_, ?_, ?_, ?_⟩
  · -- The lookups.
    intro key
    rcases h.rep.find_cases key with ⟨hfind, hm⟩ | ⟨a, it, hfind, ha, hit, -, -, hm⟩
    · rw [hfind, hm]
      rfl
    · obtain ⟨it₀, hobj, rfl⟩ := Option.map_eq_some_iff.mp hit
      rw [hfind, hm, Option.bind_some, hobj]
      rfl
  · intro a it hobj
    have hentry := h.rep.entry (hlinked a it hobj) (item_of_objects hobj)
    exact ⟨hlinked a it hobj, hentry⟩
  · exact ⟨h.rep.inv.links.linked_nodup, fun a ha => h.rep.linked_iff.mpr ha⟩
  · intro a b it it' hobj hobj' heq
    exact h.rep.key_unique (hlinked a it hobj) (hlinked b it' hobj') (item_of_objects hobj)
      (item_of_objects hobj') heq
  · -- The sum of the sizes.
    have hsize : sizeAt s.cache = MapSession.sizeOf s.cache := by
      funext a
      rw [sizeAt, MapSession.sizeOf, item, Option.map_map]
      rfl
    rw [← hsize]
    exact h.rep.bytes
  · -- The items that expire.
    refine ⟨h.rep.inv.links.alive_nodup, ?_⟩
    intro a
    rw [h.rep.inv.links.alive_iff]
    constructor
    · rintro ⟨-, -, hexpiry⟩
      cases hobj : s.cache.objects a with
      | none => simp [item, hobj] at hexpiry
      | some it =>
        rw [item_of_objects hobj] at hexpiry
        exact ⟨it, rfl, hexpiry⟩
    · rintro ⟨it, hobj, hsome⟩
      rw [item_of_objects hobj]
      exact ⟨List.not_mem_nil, .inl (hlinked a it hobj), hsome⟩

/-- In every run whose new items can be read back the cache is a map. -/
theorem cache_is_map {es : List (SlabAnswer × CacheCall)}
    (hkeeps : Guarded (MapSession.step hash) (MapSession.Keeps hash) MapSession.create es) :
    Always (MapSession.step hash) (MapSession.Correct hash) MapSession.create es := by
  apply always_of_guarded (Follows hash) (fun s h => h.correct)
    (fun s e t h hok hstep => h.step hok hstep) _ hkeeps
  refine ⟨Rep.create hash, rfl, ?_⟩
  intro r hr
  cases hr

/-- The number 1 under a key. -/
def number (key : Bytes) : Insertion := ⟨key, [32, 48, 32, 49], [49], none, by decide⟩

/-- The key `k` is stored, counted and removed. -/
theorem cache_is_map_counter :
    Always (MapSession.step fun key => UInt64.ofNat key.length)
      (MapSession.Correct fun key => UInt64.ofNat key.length) MapSession.create
      [(⟨[], .fresh 0, true⟩, .set (number [107])), (⟨[], .fresh 1, true⟩, .incr [107] 1),
        (⟨[], .fresh 2, true⟩, .remove [107])] :=
  cache_is_map (by decide +kernel)

/-- The prefix of an item is written over the first bytes of a key of 250 bytes, so the key is not found
after it was stored. -/
theorem not_cache_is_map_long_key :
    ¬ Always (MapSession.step fun key => UInt64.ofNat key.length)
      (MapSession.Correct fun key => UInt64.ofNat key.length) MapSession.create
      [(⟨[], .fresh 0, true⟩, .set (number (List.replicate 250 107)))] := by
  intro h
  have hrun : (run (MapSession.step fun key => UInt64.ofNat key.length) MapSession.create
      [(⟨[], .fresh 0, true⟩, .set (number (List.replicate 250 107)))]).map (fun s =>
        (s.cache.find (fun key => UInt64.ofNat key.length) (List.replicate 250 107),
          (s.map (List.replicate 250 107)).isSome)) = some (none, true) := by
    decide +kernel
  obtain ⟨s, hs, heq⟩ := Option.map_eq_some_iff.mp hrun
  obtain ⟨hfind, hmap⟩ := Prod.mk.inj heq
  have hfound := (h.last hs).found (List.replicate 250 107)
  rw [hfind, Option.bind_none] at hfound
  rw [← hfound] at hmap
  cases hmap

end Netstar.Proofs.Memcached
