import Netstar.Lib.Run
import Netstar.Proofs.Memcached.Cache
import Netstar.Spec.Memcached.Flight

/-!
# `Netstar.Proofs.Memcached.Flight`: requests while replies are in flight

`Change` is what every request does to the cache, for any replies in flight: the references and links
stay in order, the items of the replies stay in their objects, and each item that is linked
afterwards was linked before, or replaces one, or is new.

With replies that hold only linked items, an LRU list has only linked items that no reply holds. A
request that unlinks the item of a reply breaks this.
-/

set_option autoImplicit false

namespace Netstar.Proofs.Memcached

open Netstar.Lib
open Netstar.Spec.Memcached

variable {hash : Bytes → UInt64} {s s' s₀ s₁ : Cache} {a b : Nat} {it old : Item}
  {held leaked vs : List Nat} {insertion : Insertion} {answer : SlabAnswer} {r : Request}

/-- Where a linked item comes from: it was linked and stays, or it replaces the item in `repl`, or it
is made from `fresh`. -/
def Origin (hash : Bytes → UInt64) (s : Cache) (answer : SlabAnswer) (unlinked : List Nat)
    (repl : Option (Nat × Insertion)) (fresh : Option Insertion) (b : Nat) (it : Item) : Prop :=
  (b ∈ s.table ∧ b ∉ unlinked ∧ item s b = some it) ∨
    (∃ p ∈ repl, answer.room ≠ .none ∧ p.1 ∈ s.table ∧ ∃ old, item s p.1 = some old ∧
      ∃ serial, it = Item.create hash p.2 (old.version + 1) serial) ∨
    ∃ insertion ∈ fresh, ∃ serial, it = Item.create hash insertion 1 serial

/-- The new item is equal to a linked one that stays. -/
def Collides (hash : Bytes → UInt64) (s : Cache) (answer : SlabAnswer) (unlinked : List Nat)
    (repl : Option (Nat × Insertion)) (fresh : Option Insertion) : Prop :=
  answer.room ≠ .none ∧ ∃ insertion ∈ fresh.or (repl.map Prod.snd),
    Stays hash s (unlinked ++ answer.victims) insertion

/-- The reasons why a request can fail. -/
def Excused (hash : Bytes → UInt64) (s : Cache) (answer : SlabAnswer) (held leaked unlinked : List Nat)
    (repl : Option (Nat × Insertion)) (fresh : Option Insertion) (e : CacheFault) : Prop :=
  e = .notOffered ∨ leaked ≠ [] ∨ (∃ a ∈ held, a ∉ s.table ∨ a ∈ unlinked) ∨
    Collides hash s answer unlinked repl fresh

/-- What a request does. `unlinked` are the items that it unlinks itself, and `new` the ones that its
reply holds. -/
structure Change (hash : Bytes → UInt64) (s s' : Cache) (answer : SlabAnswer)
    (new held leaked unlinked : List Nat) (repl : Option (Nat × Insertion)) (fresh : Option Insertion) : Prop where
  inv : ∃ leaked', (leaked' = leaked ∨ Collides hash s answer unlinked repl fresh) ∧
    Inv s' (new ++ held) leaked' s'.table []
  referred : ∀ a ∈ new, a ∈ s'.table
  kept : ∀ a ∈ held, item s' a = item s a
  stays : ∀ a ∈ s.table, a ∈ held → a ∉ unlinked → a ∈ s'.table
  origin : ∀ b ∈ s'.table, ∀ it, item s' b = some it →
    Origin hash s answer unlinked repl fresh b it

/-! ### Parts of a request -/

/-- A request that changes nothing. -/
theorem Change.refl (h : Inv s held leaked s.table []) (repl : Option (Nat × Insertion))
    (fresh : Option Insertion) : Change hash s s answer [] held leaked [] repl fresh := by
  refine ⟨⟨leaked, .inl rfl, h⟩, by simp, ?_, ?_, ?_⟩
  · exact fun a _ => rfl
  · exact fun a ha _ _ => ha
  · exact fun b hb it hit => .inl ⟨hb, List.not_mem_nil, hit⟩

/-- Items are unlinked, and nothing else happens. -/
theorem Change.drop (vs : List Nat) {unlinked : List Nat} (hinv : Inv s' held leaked s'.table [])
    (htable : ∀ a, a ∈ s'.table ↔ a ∈ s.table ∧ a ∉ vs)
    (hitem : ∀ a, a ∉ vs ∨ a ∈ held → item s' a = item s a)
    (hvs : ∀ a ∈ vs, a ∈ held → a ∈ unlinked) (hsub : ∀ a ∈ unlinked, a ∈ vs)
    (repl : Option (Nat × Insertion)) (fresh : Option Insertion) :
    Change hash s s' answer [] held leaked unlinked repl fresh := by
  refine ⟨⟨leaked, .inl rfl, hinv⟩, by simp, ?_, ?_, ?_⟩
  · exact fun a ha => hitem a (.inr ha)
  · intro a ha hheld hnot
    exact (htable a).mpr ⟨ha, fun hmem => hnot (hvs a hmem hheld)⟩
  · intro b hb it hit
    obtain ⟨hmem, hnot⟩ := (htable b).mp hb
    rw [hitem b (.inl hnot)] at hit
    exact .inl ⟨hmem, fun hun => hnot (hsub b hun), hit⟩

/-- Evictions. -/
theorem Evicted.change (h : Evicted s s' held leaked vs) (repl : Option (Nat × Insertion))
    (fresh : Option Insertion) : Change hash s s' answer [] held leaked [] repl fresh := by
  have hnot : ∀ a ∈ held, a ∉ vs := fun a ha hmem => (h.victims a hmem).2 ha
  apply Change.drop vs h.inv
  · intro a
    rw [h.table]
    simp
  · intro a ha
    rw [h.item_eq, if_neg]
    exact ha.elim id (hnot a)
  · exact fun a hmem hheld => absurd hmem (hnot a hheld)
  · exact fun a ha => nomatch ha

/-- One item is unlinked. -/
theorem Unlinks.change (h : Unlinks s s' held a) (hnodup : s.table.Nodup)
    (hinv : Inv s' held leaked s'.table []) (htable : s'.table = s.table.erase a)
    (repl : Option (Nat × Insertion)) (fresh : Option Insertion) :
    Change hash s s' answer [] held leaked [a] repl fresh := by
  refine Change.drop [a] hinv ?_ ?_ (fun b hb _ => hb) (fun b hb => hb) repl fresh
  · intro b
    rw [htable, hnodup.mem_erase_iff, List.mem_singleton]
    exact and_comm
  · intro b hb
    by_cases hba : b = a
    · subst hba
      rw [h.item_eq, if_pos (hb.resolve_left (by simp))]
    · exact h.item_of_ne hba

/-- Many items are unlinked. -/
theorem Dropped.change {linked' : List Nat} (h : Dropped s s' held s.table linked' vs)
    (hinv : Inv s' held leaked s'.table []) (htable : s'.table = s.table.filter (· ∉ vs))
    (repl : Option (Nat × Insertion)) (fresh : Option Insertion) :
    Change hash s s' answer [] held leaked vs repl fresh := by
  apply Change.drop vs hinv
  · intro b
    rw [htable]
    simp
  · intro b hb
    rw [h.item_eq, if_neg]
    exact fun hmem => hb.elim (fun hnot => hnot hmem.1) hmem.2
  · exact fun b hb _ => hb
  · exact fun b hb => hb

/-- One item is unlinked, and then the allocator evicts some. -/
theorem Unlinks.change_evicted (h : Unlinks s s₀ held a) (hnodup : s.table.Nodup)
    (htable : s₀.table = s.table.erase a) (hevicted : Evicted s₀ s₁ held leaked vs)
    (repl : Option (Nat × Insertion)) (fresh : Option Insertion) :
    Change hash s s₁ answer [] held leaked [a] repl fresh := by
  -- The allocator evicts no item that a reply holds.
  have hnot : ∀ b ∈ held, b ∉ vs := fun b hb hmem => (hevicted.victims b hmem).2 hb
  apply Change.drop (a :: vs) hevicted.inv
  · intro b
    rw [hevicted.table, htable, List.mem_filter, hnodup.mem_erase_iff, List.mem_cons, not_or]
    simp only [decide_eq_true_eq]
    constructor
    · rintro ⟨⟨hba, hb⟩, hvs⟩
      exact ⟨hb, hba, hvs⟩
    · rintro ⟨hb, hba, hvs⟩
      exact ⟨⟨hba, hb⟩, hvs⟩
  · intro b hb
    have hvs : b ∉ vs := by
      rcases hb with hb | hb
      · exact fun hmem => hb (List.mem_cons_of_mem a hmem)
      · exact hnot b hb
    rw [hevicted.item_eq, if_neg hvs]
    by_cases hba : b = a
    · subst hba
      rw [h.item_eq, if_pos (hb.resolve_left (by simp))]
    · exact h.item_of_ne hba
  · intro b hb hheld
    rcases List.mem_cons.mp hb with rfl | hb
    · exact List.mem_singleton_self b
    · exact absurd hb (hnot b hheld)
  · intro b hb
    cases List.mem_singleton.mp hb
    exact List.mem_cons_self

/-- Nobody holds a reference to an unused address. -/
theorem Inv.not_held_of_unused (h : Inv s held leaked s.table []) (hb : s.objects b = none) :
    b ∉ held := by
  have hzero := (h.unused hb).1
  rw [refsOf] at hzero
  exact List.count_eq_zero.mp (by omega)

/-- A new item is linked after other changes. -/
theorem Change.placed {unlinked : List Nat} {repl : Option (Nat × Insertion)} {fresh : Option Insertion}
    (h : Change hash s s₁ answer [] held leaked unlinked repl fresh)
    (hinv : Inv s₁ held leaked s₁.table []) (hplaced : Placed s₁ s' held leaked b it insertion)
    (horigin : Origin hash s answer unlinked repl fresh b (content it)) :
    Change hash s s' answer [] held leaked unlinked repl fresh := by
  have hheld := hinv.not_held_of_unused hplaced.unused
  have hold : ∀ a, a ≠ b → item s' a = item s₁ a := by
    intro a ha
    rw [hplaced.item_eq]
    exact Function.update_of_ne ha ..
  refine ⟨⟨leaked, .inl rfl, hplaced.inv⟩, by simp, ?_, ?_, ?_⟩
  · intro a ha
    rw [hold a (fun heq => hheld (heq ▸ ha))]
    exact h.kept a ha
  · intro a ha hmem hnot
    rw [hplaced.table]
    exact List.mem_cons_of_mem b (h.stays a ha hmem hnot)
  · intro c hc it' hit'
    rw [hplaced.table] at hc
    by_cases hcb : c = b
    · subst hcb
      rw [hplaced.item_eq, Function.update_self] at hit'
      cases hit'
      exact horigin
    · rw [hold c hcb] at hit'
      exact h.origin c ((List.mem_cons.mp hc).resolve_left hcb) it' hit'

/-- A new item that the table does not take. -/
theorem Change.leaks {unlinked : List Nat} {repl : Option (Nat × Insertion)} {fresh : Option Insertion}
    (h : Change hash s s₁ answer [] held leaked unlinked repl fresh)
    (hinv : Inv s₁ held leaked s₁.table []) (hleaks : Leaks s₁ s' held leaked b it)
    (hcollides : Collides hash s answer unlinked repl fresh) :
    Change hash s s' answer [] held leaked unlinked repl fresh := by
  have hunused := hinv.unused hleaks.unused
  have hheld := hinv.not_held_of_unused hleaks.unused
  have hold : ∀ a, a ≠ b → item s' a = item s₁ a := by
    intro a ha
    rw [hleaks.item_eq]
    exact Function.update_of_ne ha ..
  refine ⟨⟨b :: leaked, .inr hcollides, hleaks.inv⟩, by simp, ?_, ?_, ?_⟩
  · intro a ha
    rw [hold a (fun heq => hheld (heq ▸ ha))]
    exact h.kept a ha
  · intro a ha hmem hnot
    rw [hleaks.table]
    exact h.stays a ha hmem hnot
  · intro c hc it' hit'
    rw [hleaks.table] at hc
    rw [hold c (fun heq => hunused.2.1 (heq ▸ hc))] at hit'
    exact h.origin c hc it' hit'

/-! ### Requests -/

/-- A new item is stored only where the allocator had room. -/
theorem addNew_room (h : s.addNew hash answer insertion = .ok (s', some b)) : answer.room ≠ .none := by
  rw [Cache.addNew] at h
  obtain ⟨⟨s₁, res⟩, hcreate, hrest⟩ := bind_eq_ok.mp h
  cases res with
  | none => cases hrest
  | some c => exact slabCreate_room hcreate

/-- An item is overridden only where the allocator had room for the new one. -/
theorem addOverriding_room (h : s.addOverriding hash answer a insertion = .ok (s', some b)) :
    answer.room ≠ .none := by
  rw [Cache.addOverriding] at h
  obtain ⟨old, -, h⟩ := bind_eq_ok.mp h
  obtain ⟨s₀, -, h⟩ := bind_eq_ok.mp h
  obtain ⟨⟨s₁, res⟩, hcreate, hrest⟩ := bind_eq_ok.mp h
  cases res with
  | none => cases hrest
  | some c => exact slabCreate_room hcreate

section

variable (h : Inv s held leaked s.table [])
include h

/-- An item in an LRU list is linked, or a reply holds it, or the table did not take it. -/
theorem Inv.excused {e : CacheFault} {unlinked : List Nat} {repl : Option (Nat × Insertion)}
    {fresh : Option Insertion} (he : Refused s e) :
    Excused hash s answer held leaked unlinked repl fresh e := by
  rcases he with hoffered | ⟨-, b, hb, hnot⟩
  · exact .inl hoffered
  · right
    have hone := (h.refs.lru_iff b).mp hb
    rw [refsOf, List.count_eq_zero.mpr hnot] at hone
    by_cases hheld : b ∈ held
    · exact .inr (.inl ⟨b, hheld, .inl hnot⟩)
    · rw [List.count_eq_zero.mpr hheld] at hone
      exact .inl (List.ne_nil_of_mem (List.count_pos_iff.mp (by omega) : b ∈ leaked))

/-- `add_new`. -/
theorem addNew_change (hfind : s.find hash insertion.key = none) :
    Sat (Excused hash s answer held leaked [] none (s.fresh hash answer insertion))
      (fun r => Change hash s r.1 answer [] held leaked [] none (s.fresh hash answer insertion) ∧
        (r.2.isSome = true ↔ answer.room ≠ .none))
      (s.addNew hash answer insertion) := by
  rcases (addNew_spec h answer).cases with ⟨e, herror, he⟩ | ⟨⟨s', res⟩, hok, s₁, hevicted, hres⟩
  · rw [herror]
    exact h.excused he
  · rw [hok]
    have hchange : Change hash s s₁ answer [] held leaked [] none (s.fresh hash answer insertion) :=
      hevicted.change none _
    cases res with
    | none =>
      rw [← hres.1] at hchange
      exact ⟨hchange, by simp [hres.2]⟩
    | some b =>
      have hroom := addNew_room hok
      have hfresh : s.fresh hash answer insertion = some insertion := by
        rw [Cache.fresh, if_pos]
        exact ⟨by rw [hfind]; rfl, hroom⟩
      refine ⟨?_, by simp [hroom]⟩
      -- `_cache` takes the new item, or it refuses it for an equal one.
      by_cases hsame : NoSame s₁ (Item.create hash insertion 1 s.created)
      · apply hchange.placed hevicted.inv (hres.1 hsame)
        exact .inr (.inr ⟨insertion, hfresh, s.created, content_create⟩)
      · apply hchange.leaks hevicted.inv (hres.2 hsame)
        refine ⟨hroom, insertion, by rw [hfresh]; rfl, ?_⟩
        by_contra hnot
        exact hsame (noSame_of_not_stays hnot hevicted)

/-- `add_overriding`. -/
theorem addOverriding_change (ha : a ∈ s.table) (hold : item s a = some old)
    (hkey : old.hasKey hash insertion.key = true) :
    Sat (Excused hash s answer held leaked [a] (some (a, insertion)) none)
      (fun r => Change hash s r.1 answer [] held leaked [a] (some (a, insertion)) none ∧
        (r.2.isSome = true ↔ answer.room ≠ .none) ∧ ∀ b ∈ r.2, b ∈ r.1.table ∧ b ∉ held)
      (s.addOverriding hash answer a insertion) := by
  rcases (addOverriding_spec h answer ha hold hkey).cases with
    ⟨e, herror, he⟩ | ⟨⟨s', res⟩, hok, s₀, s₁, -, hunlinks, htable, hevicted, hres⟩
  · rw [herror]
    rcases he with (hoffered | ⟨hlinked, hlru | hheld⟩) | ⟨hroom, -, hstays⟩
    · -- The refusals of the allocator, and the equal item that `_cache` may still have.
      exact .inl hoffered
    · exact h.excused (.inr ⟨hlinked, hlru⟩)
    · exact .inr (.inr (.inl ⟨a, hheld, .inr (List.mem_singleton_self a)⟩))
    · exact .inr (.inr (.inr ⟨hroom, insertion, rfl, hstays⟩))
  · rw [hok]
    have hchange : Change hash s s₁ answer [] held leaked [a] (some (a, insertion)) none :=
      hunlinks.change_evicted h.links.linked_nodup htable hevicted _ _
    cases res with
    | none =>
      rw [← hres.1] at hchange
      exact ⟨hchange, by simp [hres.2], fun b hb => nomatch hb⟩
    | some b =>
      have hroom := addOverriding_room hok
      refine ⟨?_, by simp [hroom], ?_⟩
      · apply hchange.placed hevicted.inv hres
        exact .inr (.inl ⟨(a, insertion), rfl, hroom, ha, old, hold, s.created, content_create⟩)
      · intro c hc
        cases hc
        rw [hres.table]
        exact ⟨List.mem_cons_self, hevicted.inv.not_held_of_unused hres.unused⟩

end

/-- The counters of the cache do not matter. -/
theorem Change.congr {s'' : Cache} {new unlinked : List Nat} {repl : Option (Nat × Insertion)}
    {fresh : Option Insertion} (h : Change hash s s' answer new held leaked unlinked repl fresh)
    (hobjects : s''.objects = s'.objects) (hlru : s''.lru = s'.lru) (htable : s''.table = s'.table)
    (halive : s''.alive = s'.alive) : Change hash s s'' answer new held leaked unlinked repl fresh := by
  have hitem : item s'' = item s' := by
    funext a
    exact congrArg (Option.map content) (congrFun hobjects a)
  obtain ⟨leaked', hleaked, hinv⟩ := h.inv
  refine ⟨⟨leaked', hleaked, ?_⟩, ?_, ?_, ?_, ?_⟩
  · rw [htable]
    exact ⟨hinv.refs.congr hobjects hlru, hinv.links.congr halive hitem⟩
  · rw [htable]
    exact h.referred
  · rw [hitem]
    exact h.kept
  · rw [htable]
    exact h.stays
  · rw [htable, hitem]
    exact h.origin

/-- The counters before the request do not matter either. -/
theorem Change.of_stats {stats : CacheStats} {new unlinked : List Nat} {repl : Option (Nat × Insertion)}
    {fresh : Option Insertion}
    (h : Change hash { s with stats := stats } s' answer new held leaked unlinked repl fresh) :
    Change hash s s' answer new held leaked unlinked repl fresh :=
  ⟨h.inv, h.referred, h.kept, h.stays, h.origin⟩

/-- The invariant says nothing about the statistics. -/
theorem Inv.of_stats (h : Inv s held leaked s.table []) (stats : CacheStats) :
    Inv { s with stats := stats } held leaked s.table [] :=
  ⟨h.refs.congr rfl rfl, h.links.congr rfl rfl⟩

/-- The reply takes a reference. -/
theorem Change.addRef {unlinked : List Nat} {repl : Option (Nat × Insertion)} {fresh : Option Insertion}
    (h : Change hash s s₁ answer [] held leaked unlinked repl fresh) (ha : a ∈ s₁.table)
    (hlt : held.count a < 65534) :
    ∃ s', s₁.addRef a = .ok s' ∧ Change hash s s' answer [a] held leaked unlinked repl fresh := by
  obtain ⟨leaked', hleaked, hinv⟩ := h.inv
  obtain ⟨s', hok, hinv', hitem, hsame⟩ := hinv.addRef ha hlt
  refine ⟨s', hok, ⟨leaked', hleaked, ?_⟩, ?_, ?_, ?_, ?_⟩
  · rw [hsame.table]
    exact hinv'
  · intro b hb
    cases List.mem_singleton.mp hb
    rw [hsame.table]
    exact ha
  · rw [hitem]
    exact h.kept
  · rw [hsame.table]
    exact h.stays
  · rw [hsame.table, hitem]
    exact h.origin

/-- The request stores an item. -/
def Stores (hash : Bytes → UInt64) (s : Cache) (answer : SlabAnswer) (r : Request) : Prop :=
  answer.room ≠ .none ∧
    ((s.overrides hash r).isSome = true ∨ (s.creates hash answer r).isSome = true)

/-- What a request does, in the terms of the request. -/
def Does (hash : Bytes → UInt64) (s : Cache) (answer : SlabAnswer) (held leaked : List Nat)
    (r : Request) (x : Except CacheFault (Cache × Response)) : Prop :=
  Sat (Excused hash s answer held leaked (s.unlinks hash r) (s.overrides hash r)
      (s.creates hash answer r))
    (fun p => Change hash s p.1 answer p.2.held held leaked (s.unlinks hash r) (s.overrides hash r)
        (s.creates hash answer r) ∧
      (p.2.isStored = true ↔ Stores hash s answer r)) x

/-- Counting on a key without an item does nothing. -/
theorem counts_none {key : Bytes} (f : UInt64 → UInt64) (hfind : s.find hash key = none) :
    s.counts hash key f = none := by
  rw [Cache.counts, hfind]
  rfl

/-- A new item is stored if there is room. -/
theorem stores_fresh (hfind : s.find hash insertion.key = none)
    (hcreates : s.creates hash answer r = s.fresh hash answer insertion)
    (hover : s.overrides hash r = none) : Stores hash s answer r ↔ answer.room ≠ .none := by
  rw [Stores, hover, hcreates, Cache.fresh, hfind]
  by_cases hroom : answer.room = .none <;> simp [hroom]

/-- An item is replaced if there is room. -/
theorem stores_over {p : Nat × Insertion} (hover : s.overrides hash r = some p) :
    Stores hash s answer r ↔ answer.room ≠ .none := by
  simp [Stores, hover]

/-- A request without effect, if it changes only counters. -/
theorem Does.nothing {response : Response} (h : Inv s held leaked s.table [])
    (hover : s.overrides hash r = none) (hcreates : s.creates hash answer r = none)
    (hunlinks : s.unlinks hash r = []) (hobjects : s'.objects = s.objects) (hlru : s'.lru = s.lru)
    (htable : s'.table = s.table) (halive : s'.alive = s.alive) (hheld : response.held = [])
    (hstored : response.isStored = false) : Does hash s answer held leaked r (.ok (s', response)) := by
  refine ⟨?_, ?_⟩
  · show Change hash s s' answer response.held held leaked _ _ _
    rw [hunlinks, hheld]
    exact (Change.refl h _ _).congr hobjects hlru htable halive
  · show response.isStored = true ↔ _
    simp [hstored, Stores, hover, hcreates]

section

variable (h : Inv s held leaked s.table [])
include h

/-- `set` stores the insertion and unlinks only what `Does` allows. -/
theorem set_does (insertion : Insertion) :
    Does hash s answer held leaked (.call (.set insertion))
      (s.request hash answer (.call (.set insertion))) := by
  show Does _ _ _ _ _ _ (((s.set hash answer insertion).map _).map _)
  cases hfind : s.find hash insertion.key with
  -- A new key.
  | none =>
    have hover : s.overrides hash (.call (.set insertion)) = none := by
      rw [Cache.overrides, hfind]
      rfl
    simp only [Does, Cache.unlinks, hover, Cache.set, hfind, stores_fresh hfind rfl hover]
    rcases (addNew_change h hfind).cases with
      ⟨e, herror, he⟩ | ⟨⟨s', _ | b⟩, hok, hchange, hroom⟩
    · rw [herror]
      exact he
    · rw [hok]
      exact ⟨hchange, hroom⟩
    · rw [hok]
      exact ⟨hchange.congr rfl rfl rfl rfl, hroom⟩
  -- The item of the key is replaced.
  | some a =>
    obtain ⟨ha, old, hold, hkey⟩ := find_some hfind
    have hover : s.overrides hash (.call (.set insertion)) = some (a, insertion) := by
      rw [Cache.overrides, hfind]
      rfl
    simp only [Does, Cache.unlinks, hover, Cache.creates, fresh_of_find hfind, Cache.set, hfind,
      stores_over hover]
    rcases (addOverriding_change h ha hold hkey).cases with
      ⟨e, herror, he⟩ | ⟨⟨s', _ | b⟩, hok, hchange, hroom, -⟩
    · rw [herror]
      exact he
    · rw [hok]
      exact ⟨hchange, hroom⟩
    · rw [hok]
      exact ⟨hchange.congr rfl rfl rfl rfl, hroom⟩

/-- `add` does only what `Does` allows. -/
theorem add_does (insertion : Insertion) :
    Does hash s answer held leaked (.call (.add insertion))
      (s.request hash answer (.call (.add insertion))) := by
  show Does _ _ _ _ _ _ (((s.add hash answer insertion).map _).map _)
  cases hfind : s.find hash insertion.key with
  | none =>
    have hinv : Inv { s with stats.setAdds := s.stats.setAdds + 1 } held leaked s.table [] :=
      h.of_stats _
    simp only [Does, Cache.unlinks, Cache.add, hfind,
      stores_fresh (r := .call (.add insertion)) hfind rfl rfl]
    rcases (addNew_change hinv hfind).cases with
      ⟨e, herror, he⟩ | ⟨⟨s', _ | b⟩, hok, hchange, hroom⟩
    · rw [herror]
      exact he
    · rw [hok]
      exact ⟨hchange.of_stats, hroom⟩
    · rw [hok]
      exact ⟨hchange.of_stats, hroom⟩
  | some a =>
    simp only [Cache.add, hfind]
    exact Does.nothing h rfl (fresh_of_find hfind) rfl rfl rfl rfl rfl rfl rfl

/-- `replace` does only what `Does` allows. -/
theorem replace_does (insertion : Insertion) :
    Does hash s answer held leaked (.call (.replace insertion))
      (s.request hash answer (.call (.replace insertion))) := by
  show Does _ _ _ _ _ _ (((s.replace hash answer insertion).map _).map _)
  cases hfind : s.find hash insertion.key with
  | none =>
    have hover : s.overrides hash (.call (.replace insertion)) = none := by
      rw [Cache.overrides, hfind]
      rfl
    simp only [Cache.replace, hfind]
    exact Does.nothing h hover rfl (by simp [Cache.unlinks, hover]) rfl rfl rfl rfl rfl rfl
  | some a =>
    obtain ⟨ha, old, hold, hkey⟩ := find_some hfind
    have hover : s.overrides hash (.call (.replace insertion)) = some (a, insertion) := by
      rw [Cache.overrides, hfind]
      rfl
    have hinv : Inv { s with stats.setReplaces := s.stats.setReplaces + 1 } held leaked s.table [] :=
      h.of_stats _
    simp only [Does, Cache.unlinks, hover, Cache.creates, Cache.replace, hfind, stores_over hover]
    rcases (addOverriding_change hinv ha hold hkey).cases with
      ⟨e, herror, he⟩ | ⟨⟨s', _ | b⟩, hok, hchange, hroom, -⟩
    · rw [herror]
      exact he
    · rw [hok]
      exact ⟨hchange.of_stats, hroom⟩
    · rw [hok]
      exact ⟨hchange.of_stats, hroom⟩

/-- `cas` does only what `Does` allows. -/
theorem cas_does (insertion : Insertion) (version : UInt64) :
    Does hash s answer held leaked (.call (.cas insertion version))
      (s.request hash answer (.call (.cas insertion version))) := by
  show Does _ _ _ _ _ _ (((s.cas hash answer insertion version).map _).map _)
  cases hfind : s.find hash insertion.key with
  | none =>
    have hover : s.overrides hash (.call (.cas insertion version)) = none := by
      rw [Cache.overrides, hfind]
      rfl
    simp only [Cache.cas, hfind]
    exact Does.nothing h hover rfl (by simp [Cache.unlinks, hover]) rfl rfl rfl rfl rfl rfl
  | some a =>
    obtain ⟨ha, old, hold, hkey⟩ := find_some hfind
    obtain ⟨it, hobj, hderef, -⟩ := h.refs.deref (refsOf_ne_zero ha)
    have hover : s.overrides hash (.call (.cas insertion version)) =
        if it.version = version then some (a, insertion) else none := by
      rw [Cache.overrides, hfind, Option.filter_some, hobj, Option.any_some]
      by_cases hversion : it.version = version <;> simp [hversion]
    simp only [Cache.cas, hfind]
    rw [hderef, ok_bind]
    -- With another version nothing is stored.
    by_cases hversion : it.version = version
    · rw [if_pos hversion] at hover
      rw [if_neg (not_not.mpr hversion)]
      have hinv : Inv { s with stats.casHits := s.stats.casHits + 1 } held leaked s.table [] :=
        h.of_stats _
      simp only [Does, Cache.unlinks, hover, Cache.creates, stores_over hover]
      show Sat _ _ (Except.map _ (Except.map _ (Cache.addOverriding .. >>= _)))
      rcases (addOverriding_change hinv ha hold hkey).cases with
        ⟨e, herror, he⟩ | ⟨⟨s', _ | b⟩, hok, hchange, hroom, -⟩
      · rw [herror]
        exact he
      · rw [hok]
        exact ⟨hchange.of_stats, hroom⟩
      · rw [hok]
        exact ⟨hchange.of_stats, hroom⟩
    · rw [if_neg hversion] at hover
      rw [if_pos hversion]
      exact Does.nothing h hover rfl (by simp [Cache.unlinks, hover]) rfl rfl rfl rfl rfl rfl

/-- The end of `incr` and `decr`. The number of references to the item is small enough for one more. -/
theorem count_does {key : Bytes} {stats : CacheStats} (hfind : s.find hash key = some a)
    (f : UInt64 → UInt64) (hover : s.overrides hash r = s.counts hash key f)
    (hcreates : s.creates hash answer r = none)
    (hunlinks : s.unlinks hash r = ((s.overrides hash r).map Prod.fst).toList)
    (hlt : held.count a < 65534) :
    Does hash s answer held leaked r
      ((Cache.count hash { s with stats := stats } answer key a f).map fun p => (p.1, .counted p.2)) := by
  obtain ⟨ha, old, hold, hkey⟩ := find_some hfind
  obtain ⟨it, hobj, hderef, -⟩ := h.refs.deref (refsOf_ne_zero ha)
  have hderef' : Cache.deref { s with stats := stats } a = .ok it := hderef
  rw [Cache.count, hderef', ok_bind]
  cases hvalue : it.dataAsIntegral with
  -- The value is no number: the reply takes a reference to the old item.
  | none =>
    have hnone : s.overrides hash r = none := by
      rw [hover]
      simp [Cache.counts, hfind, hobj, hvalue]
    have hsame : Change hash s { s with stats := stats } answer [] held leaked [] none none :=
      (Change.refl h _ _).congr rfl rfl rfl rfl
    obtain ⟨s', hok, hchange⟩ := hsame.addRef ha hlt
    rw [Does, hunlinks, hnone, hcreates]
    show Sat _ _ (Except.map _ (Cache.addRef { s with stats := stats } a >>= _))
    rw [hok]
    refine ⟨hchange, ?_⟩
    simp [Stores, hnone, hcreates, Response.isStored]
  | some value =>
    have hsome : s.overrides hash r =
        some (a, Cache.renewed key it (f value) (Cache.toSstring_length_lt _)) := by
      rw [hover]
      simp [Cache.counts, hfind, hobj, hvalue]
    have hkey' : old.hasKey hash (Cache.renewed key it (f value) (Cache.toSstring_length_lt _)).key =
        true := hkey
    simp only [Does, hunlinks, hsome, hcreates, stores_over hsome]
    show Sat _ _ (Except.map _ (Cache.addOverriding .. >>= _))
    rcases (addOverriding_change (h.of_stats stats) ha hold hkey').cases with
      ⟨e, herror, he⟩ | ⟨⟨s', _ | b⟩, hok, hchange, hroom, hnew⟩
    · rw [herror]
      exact he
    · rw [hok]
      exact ⟨hchange.of_stats, hroom⟩
    · rw [hok, ok_bind]
      -- The new item is held by nobody, so its counter takes one reference more.
      obtain ⟨hb, hnot⟩ := hnew b rfl
      obtain ⟨s₂, hok₂, hchange₂⟩ :=
        hchange.of_stats.addRef hb (by rw [List.count_eq_zero.mpr hnot]; decide)
      show Sat _ _ (Except.map _ (s'.addRef b >>= _))
      rw [hok₂]
      exact ⟨hchange₂, hroom⟩

/-- `incr` does only what `Does` allows, as long as the reference count does not wrap. -/
theorem incr_does (key : Bytes) (delta : UInt64)
    (hlt : ∀ a ∈ s.find hash key, held.count a < 65534) :
    Does hash s answer held leaked (.call (.incr key delta))
      (s.request hash answer (.call (.incr key delta))) := by
  show Does _ _ _ _ _ _ ((s.incr hash answer key delta).map _)
  cases hfind : s.find hash key with
  | none =>
    have hover : s.overrides hash (.call (.incr key delta)) = none := counts_none _ hfind
    simp only [Cache.incr, hfind]
    exact Does.nothing h hover rfl (by simp [Cache.unlinks, hover]) rfl rfl rfl rfl rfl rfl
  | some a =>
    simp only [Cache.incr, hfind]
    exact count_does h hfind _ rfl rfl rfl (hlt a hfind)

/-- `decr` does only what `Does` allows, as long as the reference count does not wrap. -/
theorem decr_does (key : Bytes) (delta : UInt64)
    (hlt : ∀ a ∈ s.find hash key, held.count a < 65534) :
    Does hash s answer held leaked (.call (.decr key delta))
      (s.request hash answer (.call (.decr key delta))) := by
  show Does _ _ _ _ _ _ ((s.decr hash answer key delta).map _)
  cases hfind : s.find hash key with
  | none =>
    have hover : s.overrides hash (.call (.decr key delta)) = none := counts_none _ hfind
    simp only [Cache.decr, hfind]
    exact Does.nothing h hover rfl (by simp [Cache.unlinks, hover]) rfl rfl rfl rfl rfl rfl
  | some a =>
    simp only [Cache.decr, hfind]
    exact count_does h hfind _ rfl rfl rfl (hlt a hfind)

/-- `get` does only what `Does` allows, as long as the reference count does not wrap. -/
theorem get_does (key : Bytes) (hlt : ∀ a ∈ s.find hash key, held.count a < 65534) :
    Does hash s answer held leaked (.get key) (s.request hash answer (.get key)) := by
  show Does _ _ _ _ _ _ ((s.get hash key).map _)
  cases hfind : s.find hash key with
  | none =>
    simp only [Cache.get, hfind]
    exact Does.nothing h rfl rfl rfl rfl rfl rfl rfl rfl rfl
  | some a =>
    obtain ⟨ha, -⟩ := find_some hfind
    have hsame : Change hash s { s with stats.getHits := s.stats.getHits + 1 } answer [] held leaked
        [] none none :=
      (Change.refl h _ _).congr rfl rfl rfl rfl
    obtain ⟨s', hok, hchange⟩ := hsame.addRef ha (hlt a hfind)
    simp only [Cache.get, hfind]
    rw [hok]
    refine ⟨hchange, ?_⟩
    simp [Stores, Response.isStored, Cache.overrides, Cache.creates]

/-- `remove` does only what `Does` allows. -/
theorem remove_does (key : Bytes) :
    Does hash s answer held leaked (.call (.remove key))
      (s.request hash answer (.call (.remove key))) := by
  show Does _ _ _ _ _ _ (((s.remove hash key).map _).map _)
  cases hfind : s.find hash key with
  | none =>
    simp only [Cache.remove, hfind]
    exact Does.nothing h rfl rfl (by simp [Cache.unlinks, hfind]) rfl rfl rfl rfl rfl rfl
  | some a =>
    obtain ⟨ha, -⟩ := find_some hfind
    have hinv : Inv { s with stats.deleteHits := s.stats.deleteHits + 1 } held leaked s.table [] :=
      h.of_stats _
    obtain ⟨s', herase, hinv', hunlinks, htable⟩ := hinv.erase ha true true (fun _ => ha) (by simp)
    rw [if_pos rfl] at htable
    rw [← htable] at hinv'
    simp only [Does, Cache.unlinks, Cache.remove, hfind]
    rw [herase]
    refine ⟨(hunlinks.change h.links.linked_nodup hinv' htable _ _).of_stats, ?_⟩
    simp [Stores, Response.isStored, Cache.overrides, Cache.creates]

/-- `flush_all` does only what `Does` allows. -/
theorem flushAll_does :
    Does hash s answer held leaked (.call .flushAll) (s.request hash answer (.call .flushAll)) := by
  obtain ⟨s', hok, hinv, htable, hdropped⟩ := flushAll_spec h
  show Sat _ _ ((s.flushAll.map _).map _)
  rw [hok]
  refine ⟨hdropped.change hinv (by simp [htable]) _ _, ?_⟩
  simp [Stores, Response.isStored, Cache.overrides, Cache.creates]

/-- The timer unlinks only what `Does` allows. -/
theorem expire_does (now : Int) :
    Does hash s answer held leaked (.call (.expire now))
      (s.request hash answer (.call (.expire now))) := by
  show Sat _ _ (((s.expire now).map _).map _)
  rcases (expire_spec h now).cases with ⟨e, herror, he⟩ | ⟨s', hok, hinv, htable, hdropped, -⟩
  · rw [herror]
    exact .inr (.inl he)
  · rw [hok]
    refine ⟨hdropped.change hinv htable _ _, ?_⟩
    simp [Stores, Response.isStored, Cache.overrides, Cache.creates]

/-- An eviction outside a request does only what `Does` allows. -/
theorem evict_does (a : Nat) :
    Does hash s answer held leaked (.call (.evict a)) (s.request hash answer (.call (.evict a))) := by
  show Sat _ _ (((s.evict a).map _).map _)
  have hall := evictAll_spec h [a]
  have hone : [a].foldlM Cache.evict s = s.evict a := by simp
  rw [hone] at hall
  rcases hall.cases with ⟨e, herror, he⟩ | ⟨s', hok, hevicted⟩
  · rw [herror]
    exact h.excused he
  · rw [hok]
    refine ⟨hevicted.change _ _, ?_⟩
    simp [Stores, Response.isStored, Cache.overrides, Cache.creates]

/-- Every request. -/
theorem request_does (answer : SlabAnswer) (r : Request) (hlt : ∀ a ∈ s.referred hash r, held.count a < 65534) :
    Does hash s answer held leaked r (s.request hash answer r) := by
  cases r with
  | get key => exact get_does h key hlt
  | call c =>
    cases c with
    | set insertion => exact set_does h insertion
    | add insertion => exact add_does h insertion
    | replace insertion => exact replace_does h insertion
    | cas insertion version => exact cas_does h insertion version
    | incr key delta => exact incr_does h key delta hlt
    | decr key delta => exact decr_does h key delta hlt
    | remove key => exact remove_does h key
    | flushAll => exact flushAll_does h
    | expire now => exact expire_does h now
    | evict a => exact evict_does h a

end

/-! ### Runs -/

/-- Only the numbers of references matter. -/
theorem Inv.perm {held' : List Nat} (h : Inv s held leaked s.table []) (hperm : held.Perm held') :
    Inv s held' leaked s.table [] := by
  have hrefs : refsOf held' leaked s.table = refsOf held leaked s.table := by
    funext a
    rw [refsOf, refsOf, hperm.count_eq]
  exact ⟨hrefs ▸ h.refs, h.links⟩

/-- Every item is linked, and the replies have the items that they got. -/
structure Linked (s : Flight) : Prop where
  inv : Inv s.cache s.objects [] s.cache.table []
  linked : ∀ a ∈ s.objects, a ∈ s.cache.table
  kept : ∀ reply ∈ s.held, (item s.cache reply.1).map Item.serial = some reply.2
  fault : s.fault = none

/-- An item has the serial number of its object. -/
theorem item_serial (s : Cache) (a : Nat) :
    (item s a).map Item.serial = (s.objects a).map Item.serial := by
  rw [item, Option.map_map]
  rfl

/-- In a sound cache no handle points to a freed item. -/
theorem Linked.safe {s : Flight} (h : Linked s) : s.Safe := by
  refine ⟨?_, ?_, h.fault⟩
  · intro a ha
    have hone := (h.inv.refs.lru_iff a).mp ha
    rw [refsOf, List.count_nil] at hone
    have hmem : a ∈ s.cache.table := by
      by_contra hnot
      rw [List.count_eq_zero.mpr hnot] at hone
      exact hnot (h.linked a (List.count_pos_iff.mp (by omega)))
    refine ⟨hmem, ?_⟩
    rw [h.inv.links.linked_nodup.count, if_pos hmem] at hone
    exact List.count_eq_zero.mp (by omega)
  · intro reply hreply
    rw [← item_serial]
    exact h.kept reply hreply

/-- Holding a response adds its references to those in flight. -/
theorem Flight.hold_objects (s : Flight) (cache : Cache) (response : Response) :
    (s.hold cache response).objects = response.held ++ s.objects := by
  have hfst : response.held.map (Prod.fst ∘ fun a => (a, ((cache.objects a).map Item.serial).getD 0)) =
      response.held := List.map_id _
  rw [Flight.objects, Flight.hold, List.map_append, List.map_map, hfst]
  rfl

/-- The new item of a careful request is equal to no linked item that stays. -/
theorem not_collides {s : Cache} (htaken : Flight.Taken hash s answer r) :
    ¬ Collides hash s answer (s.unlinks hash r) (s.overrides hash r) (s.creates hash answer r) := by
  rintro ⟨hroom, insertion, hmakes, a, ha, hnot, it, hit, hsame⟩
  rw [List.mem_append, not_or] at hnot
  obtain ⟨it₀, hobj, rfl⟩ := Option.map_eq_some_iff.mp hit
  rw [same_content, htaken hroom insertion hmakes a ha hnot.1 hnot.2 it₀ hobj] at hsame
  cases hsame

/-- A careful request keeps the cache sound, with the references of its response held. -/
theorem Linked.request {s : Flight} {answer : SlabAnswer} {r : Request} (h : Linked s)
    (hcareful : s.Careful hash (.request answer r)) :
    Sat (· = .notOffered) (fun p => Linked (s.hold p.1 p.2)) (s.cache.request hash answer r) := by
  obtain ⟨hunlinks, htaken, hcount⟩ := hcareful
  rcases (request_does h.inv answer r hcount).cases with ⟨e, herror, he⟩ | ⟨⟨cache, response⟩, hok, hchange, -⟩
  · rw [herror]
    rcases he with hoffered | hleaked | ⟨a, ha, hnot | hmem⟩ | hcollides
    · exact hoffered
    · exact absurd rfl hleaked
    · exact absurd (h.linked a ha) hnot
    · exact absurd ha (hunlinks a hmem)
    · exact absurd hcollides (not_collides htaken)
  · rw [hok]
    obtain ⟨leaked', hleaked, hinv⟩ := hchange.inv
    have hnil : leaked' = [] := hleaked.resolve_right (not_collides htaken)
    subst hnil
    have hobjects := Flight.hold_objects s cache response
    refine ⟨?_, ?_, ?_, h.fault⟩
    · rw [hobjects]
      exact hinv
    · intro a ha
      rw [hobjects, List.mem_append] at ha
      rcases ha with ha | ha
      · exact hchange.referred a ha
      · exact hchange.stays a (h.linked a ha) ha (fun hmem => hunlinks a hmem ha)
    · intro reply hreply
      rcases List.mem_append.mp hreply with hmem | hmem
      · -- the reply to this request: its item is in use
        obtain ⟨a, ha, rfl⟩ := List.mem_map.mp hmem
        obtain ⟨it, hobj, -, -⟩ := hinv.refs.deref (refsOf_ne_zero (hchange.referred a ha))
        rw [item_serial]
        show (cache.objects a).map Item.serial = some ((cache.objects a).map Item.serial |>.getD 0)
        rw [hobj]
        rfl
      · have hheld : reply.1 ∈ s.objects := List.mem_map_of_mem hmem
        show (item cache reply.1).map Item.serial = _
        rw [hchange.kept reply.1 hheld]
        exact h.kept reply hmem

/-- Writing a reply out releases its reference and keeps the cache sound. -/
theorem Linked.replied {s : Flight} {reply : Nat × Nat} (h : Linked s) (hreply : reply ∈ s.held) :
    ∃ cache, s.cache.release reply.1 = .ok cache ∧
      Linked { s with cache := cache, held := s.held.erase reply, last := none } := by
  have hperm : s.objects.Perm (reply.1 :: (s.held.erase reply).map Prod.fst) :=
    (List.perm_cons_erase hreply).map Prod.fst
  have hlinked : reply.1 ∈ s.cache.table := h.linked _ (List.mem_map_of_mem hreply)
  obtain ⟨cache, hok, hinv, hsame, hkeep, -⟩ := (h.inv.perm hperm).release
  have hitem : item cache = item s.cache := by
    funext a
    exact hkeep a (.inr hlinked)
  refine ⟨cache, hok, ?_, ?_, ?_, h.fault⟩
  · show Inv cache ((s.held.erase reply).map Prod.fst) [] cache.table []
    rw [hsame.table]
    exact hinv
  · intro a ha
    show a ∈ cache.table
    rw [hsame.table]
    exact h.linked a (hperm.mem_iff.mpr (List.mem_cons_of_mem _ ha))
  · intro reply' hreply'
    show (item cache reply'.1).map Item.serial = _
    rw [hitem]
    exact h.kept reply' (List.mem_of_mem_erase hreply')

/-- Every careful step keeps the cache sound. -/
theorem Linked.step {s t : Flight} {e : Flight.Event} (h : Linked s) (hcareful : s.Careful hash e)
    (hstep : s.step hash e = some t) : Linked t := by
  cases e with
  | request answer r =>
    rw [Flight.step, if_neg (by simp [h.fault])] at hstep
    rcases (h.request hcareful).cases with ⟨e, herror, rfl⟩ | ⟨⟨cache, response⟩, hok, hlinked⟩
    · rw [herror] at hstep
      cases hstep
    · rw [hok] at hstep
      cases hstep
      exact hlinked
  | replied reply =>
    rw [Flight.step, if_neg (by simp [h.fault])] at hstep
    split at hstep
    · cases hstep
    · rename_i hreply
      obtain ⟨cache, hok, hlinked⟩ := h.replied (not_not.mp hreply)
      rw [hok] at hstep
      cases hstep
      exact hlinked

/-- A new cache is sound. -/
theorem Linked.create : Linked Flight.create := by
  refine ⟨Inv.create, ?_, ?_, rfl⟩
  · intro a ha
    cases ha
  · intro reply hreply
    cases hreply

/-- In every run of careful events the replies and the allocator are safe. -/
theorem flight_safe {es : List Flight.Event}
    (hcareful : Guarded (Flight.step hash) (Flight.Careful hash) Flight.create es) :
    Always (Flight.step hash) Flight.Safe Flight.create es :=
  always_of_guarded Linked (fun _ h => h.safe) (fun _ _ _ h hok hstep => h.step hok hstep)
    Linked.create hcareful

/-- One byte fits the size of an item. -/
theorem one_byte_lt : ([49] : Bytes).length < 2 ^ 32 := by decide

/-- A store of one byte. -/
def oneByte (key : Bytes) : Insertion := ⟨key, [32, 48, 32, 49], [49], none, one_byte_lt⟩

/-- The key `k` is stored, read and, after the reply, deleted. -/
theorem flight_safe_delete_after_reply :
    Always (Flight.step fun key => UInt64.ofNat key.length) Flight.Safe Flight.create
      [.request ⟨[], .fresh 0, true⟩ (.call (.set (oneByte [107]))),
        .request ⟨[], .none, true⟩ (.get [107]), .replied (0, 0),
        .request ⟨[], .none, true⟩ (.call (.remove [107]))] := by
  apply flight_safe
  intro s₁ h₁
  cases h₁
  refine ⟨⟨?_, ?_, ?_⟩, fun s₂ h₂ => ?_⟩
  · intro a ha
    cases ha
  · intro _ insertion _ a ha
    cases ha
  · intro a ha
    cases ha
  · cases h₂
    refine ⟨⟨?_, ?_, ?_⟩, fun s₃ h₃ => ?_⟩
    · intro a ha
      cases ha
    · intro hroom
      exact absurd rfl hroom
    · intro a _
      exact Nat.zero_lt_succ _
    · cases h₃
      refine ⟨trivial, fun s₄ h₄ => ⟨⟨?_, ?_, ?_⟩, trivial⟩⟩
      · intro a _ hmem
        cases hmem
      · intro hroom
        exact absurd rfl hroom
      · intro a ha
        cases ha

/-- The key is deleted while the reply has its item: the allocator may evict it. -/
theorem deleted_item_evictable :
    ¬ Always (Flight.step fun key => UInt64.ofNat key.length) Flight.Safe Flight.create
      [.request ⟨[], .fresh 0, true⟩ (.call (.set (oneByte [107]))),
        .request ⟨[], .none, true⟩ (.get [107]),
        .request ⟨[], .none, true⟩ (.call (.remove [107]))] := by
  intro h
  have hlast := ((h.2 _ rfl).2 _ rfl).2 _ rfl
  exact absurd (hlast.lru 0 (by decide)).1 (by decide)

end Netstar.Proofs.Memcached
