import Netstar.Proofs.Memcached.Flight
import Netstar.Spec.Memcached.Gets

/-!
# `Netstar.Proofs.Memcached.Gets`: when `cas` is right

The version that a `gets` returned is the version of the linked item, as long as the table keeps this
item. Every item that replaces it has a larger version. So when `cas` finds the version again, the
item is still the same. This needs that versions are not used twice for a key, and they are: an item
for a key that was removed begins with 1.
-/

set_option autoImplicit false

namespace Netstar.Proofs.Memcached

open Netstar.Lib
open Netstar.Spec.Memcached

variable {hash : Bytes → UInt64} {s s' : Cache} {a b : Nat} {it old : Item}
  {held leaked : List Nat} {insertion : Insertion} {answer : SlabAnswer} {key : Bytes}

/-! ### The item of a key -/

/-- The item that a linked object has for its key. -/
theorem itemOf_eq {pending : List Nat} (h : Links s leaked s.table pending) (ha : a ∈ s.table)
    (hit : item s a = some it) (hkey : it.hasKey hash key = true) :
    s.itemOf hash key = some it.serial := by
  rw [Cache.itemOf, find_eq h ha hit hkey, Option.bind_some, ← item_serial, hit]
  rfl

/-- A new item that keeps its key has no other one. -/
theorem hasKey_of_kept {version : UInt64} {serial : Nat} (hkept : insertion.Kept)
    (hold : old.hasKey hash insertion.key = true)
    (hkey : (Item.create hash insertion version serial).hasKey hash key = true) :
    old.hasKey hash key = true := by
  rw [hasKey_iff, create_key hkept] at hkey
  rwa [← hkey.2]

/-- `cas` stores only over an item with the version. -/
theorem cas_stored {version : UInt64} {replaced : Bool}
    (h : s.cas hash answer insertion version = .ok (s', .yes replaced)) :
    ∃ a it, s.find hash insertion.key = some a ∧ s.objects a = some it ∧ it.version = version := by
  rw [Cache.cas] at h
  split at h
  · cases h
  · rename_i a hfind
    obtain ⟨it, hderef, hrest⟩ := bind_eq_ok.mp h
    rw [Cache.deref] at hderef
    split at hderef
    · cases hderef
    · rename_i it' hobj
      cases hderef
      refine ⟨a, it, hfind, hobj, ?_⟩
      by_contra hne
      rw [if_pos hne] at hrest
      cases hrest

/-- `get` returns the linked item with the key. -/
theorem get_found (h : Inv s held leaked s.table [])
    (hlt : ∀ a ∈ s.find hash key, held.count a < 65534)
    (hget : s.get hash key = .ok (s', some a)) :
    a ∈ s'.table ∧ ∃ it, item s' a = some it ∧ it.hasKey hash key = true := by
  rw [Cache.get] at hget
  split at hget
  · cases hget
  · rename_i b hfind
    obtain ⟨hb, it, hit, hkey⟩ := find_some hfind
    have hinv : Inv { s with stats.getHits := s.stats.getHits + 1 } held leaked s.table [] :=
      h.of_stats _
    obtain ⟨s₁, hok, -, hitem, hsame⟩ := hinv.addRef hb (hlt b hfind)
    rw [hok] at hget
    cases hget
    rw [hsame.table, hitem]
    exact ⟨hb, it, hit, hkey⟩

/-! ### One event -/

/-- What an event leaves: every linked item was linked before, or replaces one, or is new. -/
structure Moves (hash : Bytes → UInt64) (s t : Flight) (repl : Option (Nat × Insertion))
    (fresh : Option Insertion) : Prop where
  inv : ∃ leaked, Inv t.cache t.objects leaked t.cache.table []
  origin : ∀ b ∈ t.cache.table, ∀ it, item t.cache b = some it →
    ∃ answer unlinked, Origin hash s.cache answer unlinked repl fresh b it

/-- The item that an event replaces. -/
def overOf (hash : Bytes → UInt64) (s : Cache) : Flight.Event → Option (Nat × Insertion)
  | .request _ r => s.overrides hash r
  | .replied _ => none

/-- The item that an event makes. -/
def freshOf (hash : Bytes → UInt64) (s : Cache) : Flight.Event → Option Insertion
  | .request answer r => s.creates hash answer r
  | .replied _ => none

/-- A run ends with a fault, and the cache stays as it is. -/
theorem Moves.fault {s : Flight} {leaked : List Nat}
    (h : Inv s.cache s.objects leaked s.cache.table []) (f : CacheFault)
    (repl : Option (Nat × Insertion)) (fresh : Option Insertion) :
    Moves hash s { s with last := none, fault := some f } repl fresh :=
  ⟨⟨leaked, h⟩, fun _ hb _ hit => ⟨Gets.idle, [], .inl ⟨hb, List.not_mem_nil, hit⟩⟩⟩

/-- One step of the cache, as the move of entries and versions that it makes. -/
theorem flight_moves {s t : Flight} {leaked : List Nat} {e : Flight.Event}
    (h : Inv s.cache s.objects leaked s.cache.table [])
    (hcount : ∀ answer r, e = .request answer r → s.Countable hash r)
    (hstep : s.step hash e = some t) :
    Moves hash s t (overOf hash s.cache e) (freshOf hash s.cache e) := by
  cases e with
  | request answer r =>
    rw [Flight.step] at hstep
    split at hstep
    · cases hstep
    · have hdoes := request_does h answer r (hcount answer r rfl)
      split at hstep
      · cases hstep
      · cases hstep
        exact Moves.fault h _ _ _
      · rename_i cache response hok
        cases hstep
        rw [hok] at hdoes
        obtain ⟨leaked', -, hinv⟩ := hdoes.1.inv
        refine ⟨⟨leaked', ?_⟩, fun b hb it hit => ⟨answer, _, hdoes.1.origin b hb it hit⟩⟩
        rw [Flight.hold_objects]
        exact hinv
  | replied reply =>
    rw [Flight.step] at hstep
    split at hstep
    · cases hstep
    · split at hstep
      · cases hstep
      · rename_i hreply
        -- A reply that is sent lets go of its own item only.
        have hperm : s.objects.Perm (reply.1 :: (s.held.erase reply).map Prod.fst) :=
          (List.perm_cons_erase (not_not.mp hreply)).map Prod.fst
        obtain ⟨cache, hok, hinv, hsame, hkeep, -⟩ := (h.perm hperm).release
        rw [hok] at hstep
        cases hstep
        refine ⟨⟨leaked, ?_⟩, ?_⟩
        · show Inv cache ((s.held.erase reply).map Prod.fst) leaked cache.table []
          rw [hsame.table]
          exact hinv
        · intro b hb it hit
          have hb' : b ∈ s.cache.table := hsame.table ▸ hb
          refine ⟨Gets.idle, [], .inl ⟨hb', List.not_mem_nil, ?_⟩⟩
          rw [← hkeep b]
          · exact hit
          · by_cases hba : b = reply.1
            · exact .inr (hba ▸ hb')
            · exact .inl hba

/-- A request that leaves a response has returned it. -/
theorem response_of_step {s t : Flight} {r : Request} {response : Response}
    (hstep : s.step hash (.request answer r) = some t) (hlast : t.last = some response) :
    s.cache.request hash answer r = .ok (t.cache, response) := by
  rw [Flight.step] at hstep
  split at hstep
  · cases hstep
  · split at hstep
    · cases hstep
    · cases hstep
      cases hlast
    · rename_i hok
      cases hstep
      cases hlast
      exact hok

/-- The item that `get` tells a client. -/
theorem get_step {s t : Flight} (h : Inv s.cache s.objects leaked s.cache.table [])
    (hcount : s.Countable hash (.get key)) (hstep : s.step hash (.request answer (.get key)) = some t)
    (hlast : t.last = some (.item (some a))) :
    a ∈ t.cache.table ∧ ∃ it, item t.cache a = some it ∧ it.hasKey hash key = true := by
  have hrequest := response_of_step hstep hlast
  obtain ⟨⟨cache, a'⟩, hget, heq⟩ := map_eq_ok.mp hrequest
  cases heq
  exact get_found h hcount hget

/-- `STORED` is the answer for an item with the version only. -/
theorem cas_step {s t : Flight} {version : UInt64}
    (hstep : s.step hash (.request answer (.call (.cas insertion version))) = some t)
    (hstored : Gets.isStored t = true) :
    ∃ a it, s.cache.find hash insertion.key = some a ∧ s.cache.objects a = some it ∧
      it.version = version := by
  cases hlast : t.last with
  | none =>
    rw [Gets.isStored, hlast] at hstored
    cases hstored
  | some response =>
    rw [Gets.isStored, hlast, Option.any_some] at hstored
    obtain ⟨⟨cache, result⟩, hcall, heq⟩ := map_eq_ok.mp (response_of_step hstep hlast)
    cases heq
    obtain ⟨⟨cache', stored⟩, hcas, heq⟩ := map_eq_ok.mp hcall
    cases heq
    cases stored with
    | yes replaced => exact cas_stored hcas
    | no => cases hstored
    | badVersion => cases hstored
    | threw => cases hstored

/-! ### What the clients have seen -/

/-- The version is the one of the item, and nothing has happened to the key, or it is an older one. -/
def Current (o : Seen) (effects : Nat) (it : Item) : Prop :=
  (o.effects = effects ∧ o.version = it.version) ∨ o.version.toNat < it.version.toNat

/-- Every version that a client has seen is current or old. -/
structure Tracks (hash : Bytes → UInt64) (s : Gets) : Prop where
  inv : ∃ leaked, Inv s.flight.cache s.flight.objects leaked s.flight.cache.table []
  seen : ∀ o ∈ s.seen, ∀ a ∈ s.flight.cache.table, ∀ it, item s.flight.cache a = some it →
    it.hasKey hash o.key = true → Current o (s.effects o.key) it
  correct : s.Correct

variable {x : Gets}

/-- The counts stay for an item that stays. -/
theorem effectsAfter_of_linked {cache : Cache} {leaked' held' : List Nat}
    (h : Inv x.flight.cache held leaked x.flight.cache.table [])
    (h' : Inv cache held' leaked' cache.table []) (ha : a ∈ x.flight.cache.table)
    (hit : item x.flight.cache a = some it) (hb : b ∈ cache.table) (hit' : item cache b = some it)
    (hkey : it.hasKey hash key = true) : x.effectsAfter hash cache key = x.effects key := by
  rw [Gets.effectsAfter, if_pos]
  rw [itemOf_eq h.links ha hit hkey, itemOf_eq h'.links hb hit' hkey]

/-- What was seen before an event. -/
theorem Tracks.moves {t : Flight} {e : Flight.Event} (h : Tracks hash x) (hfresh : x.Fresh hash e)
    (hstep : x.flight.step hash e = some t) :
    (∃ leaked, Inv t.cache t.objects leaked t.cache.table []) ∧
      ∀ o ∈ x.seen, ∀ b ∈ t.cache.table, ∀ it, item t.cache b = some it →
        it.hasKey hash o.key = true → Current o (x.effectsAfter hash t.cache o.key) it := by
  obtain ⟨leaked, hinv⟩ := h.inv
  have hcount : ∀ answer r, e = .request answer r → x.flight.Countable hash r := by
    rintro answer r rfl
    exact hfresh.2.2
  have hmoves := flight_moves hinv hcount hstep
  obtain ⟨leaked', hinv'⟩ := hmoves.inv
  refine ⟨hmoves.inv, ?_⟩
  intro o ho b hb it hit hkey
  obtain ⟨answer, unlinked, horigin⟩ := hmoves.origin b hb it hit
  rcases horigin with
    ⟨hmem, -, hit'⟩ | ⟨p, hover, -, ha, old, hold, serial, rfl⟩ | ⟨insertion, hnew, serial, rfl⟩
  · -- the item was linked before, and the key has it still
    rw [effectsAfter_of_linked hinv hinv' hmem hit' hb hit hkey]
    exact h.seen o ho b hmem it hit' hkey
  · -- a version after the last one that could be seen
    right
    obtain ⟨it₀, hobj, rfl⟩ := Option.map_eq_some_iff.mp hold
    obtain ⟨hsucc, hseen⟩ : it₀.version.toNat + 1 < 2 ^ 64 ∧ ∀ o ∈ x.seen,
        (Item.create hash p.2 1 0).hasKey hash o.key = true → it₀.hasKey hash o.key = true := by
      cases e with
      | request answer r => exact hfresh.2.1 p hover it₀ hobj
      | replied reply => cases hover
    have hle : o.version.toNat ≤ it₀.version.toNat := by
      rcases h.seen o ho p.1 ha _ hold (hseen o ho hkey) with ⟨-, heq⟩ | hlt
      · exact Nat.le_of_eq (congrArg UInt64.toNat heq)
      · exact Nat.le_of_lt hlt
    have hnext : (it₀.version + 1).toNat = it₀.version.toNat + 1 := by
      rw [UInt64.toNat_add]
      exact Nat.mod_eq_of_lt hsucc
    show o.version.toNat < (it₀.version + 1).toNat
    omega
  · -- no new item for a key that was seen
    cases e with
    | request answer r =>
      have hnot : (Item.create hash insertion 1 serial).hasKey hash o.key = false :=
        hfresh.1 insertion hnew o ho
      rw [hnot] at hkey
      cases hkey
    | replied reply => cases hnew

/-- Every careful step keeps the versions given out in line with the entries. -/
theorem Tracks.step {t : Gets} {e : Gets.Event} (h : Tracks hash x) (hcareful : x.Careful hash e)
    (hstep : x.step hash e = some t) : Tracks hash t := by
  cases e with
  | gets client key =>
    have hfresh := hcareful _ rfl
    obtain ⟨flight, hflight, rfl⟩ := Option.map_eq_some_iff.mp hstep
    obtain ⟨hinv', hseen⟩ := h.moves hfresh hflight
    refine ⟨hinv', ?_, fun p hp => nomatch hp⟩
    intro o ho b hb it hit hkey
    rcases List.mem_append.mp ho with ho | ho
    · exact hseen o ho b hb it hit hkey
    · -- the version that the client sees now is the one of the linked item
      obtain ⟨leaked, hinv⟩ := h.inv
      obtain ⟨leaked', hinv''⟩ := hinv'
      rw [Gets.tells] at ho
      split at ho
      · rename_i a hlast
        obtain ⟨ha, it', hit', hkey'⟩ := get_step hinv hfresh.2.2 hflight hlast
        obtain ⟨it₀, hobj, rfl⟩ := Option.map_eq_some_iff.mp hit'
        obtain ⟨it₁, hit₁, rfl⟩ := List.mem_map.mp ho
        rw [hobj, Option.toList_some, List.mem_singleton] at hit₁
        subst hit₁
        have hba := hinv''.links.key_unique hb ha hit hit' hkey hkey'
        subst hba
        rw [hit'] at hit
        cases hit
        exact .inl ⟨rfl, rfl⟩
      · cases ho
  | cas client gets answer insertion =>
    obtain ⟨o, ho, hrest⟩ := Option.bind_eq_some_iff.mp hstep
    obtain ⟨flight, hflight, rfl⟩ := Option.map_eq_some_iff.mp hrest
    obtain ⟨hinv', hseen⟩ := h.moves (hcareful _ (by simp [Gets.flightEvent, ho])) hflight
    refine ⟨hinv', hseen, ?_⟩
    intro p hp
    obtain ⟨hstored, rfl⟩ : Gets.isStored flight = true ∧ (o.effects, x.effects insertion.key) = p := by
      simpa using hp
    obtain ⟨a, it, hfind, hobj, hversion⟩ := cas_step hflight hstored
    obtain ⟨ha, it', hit', hkey⟩ := find_some hfind
    rw [item_of_objects hobj] at hit'
    cases hit'
    obtain ⟨ho, hfound⟩ := Option.filter_eq_some_iff.mp ho
    have hmem := List.mem_of_getElem? ho
    simp only [decide_eq_true_eq] at hfound
    rw [← hfound.2] at hkey ⊢
    -- Nothing has touched the key since the `gets`, or its version is larger by now, and then the
    -- `cas` would not have stored.
    rcases h.seen o hmem a ha _ (item_of_objects hobj) hkey with ⟨heffects, -⟩ | hlt
    · exact heffects
    · rw [← hversion] at hlt
      exact absurd hlt (Nat.lt_irrefl _)
  | other e =>
    obtain ⟨flight, hflight, rfl⟩ := Option.map_eq_some_iff.mp hstep
    obtain ⟨hinv', hseen⟩ := h.moves (hcareful _ rfl) hflight
    exact ⟨hinv', hseen, fun p hp => nomatch hp⟩

/-- In every run that does not start the versions of a key again, a `cas` that stored was right. -/
theorem cas_correct {es : List Gets.Event}
    (hcareful : Guarded (Gets.step hash) (Gets.Careful hash) Gets.create es) :
    Always (Gets.step hash) Gets.Correct Gets.create es := by
  apply always_of_guarded (Tracks hash) (fun _ h => h.correct)
    (fun _ _ _ h hok hstep => h.step hok hstep) _ hcareful
  refine ⟨⟨[], Inv.create⟩, ?_, fun p hp => nomatch hp⟩
  intro o ho
  cases ho

/-- The key `k` is stored, a client reads its version, and its `cas` stores. -/
theorem cas_correct_undisturbed :
    Always (Gets.step fun key => UInt64.ofNat key.length) Gets.Correct Gets.create
      [.other (.request ⟨[], .fresh 0, true⟩ (.call (.set (oneByte [107])))), .gets 1 [107],
        .other (.replied (0, 0)), .cas 1 0 ⟨[], .fresh 1, true⟩ (oneByte [107])] := by
  apply cas_correct
  intro s₁ h₁
  cases h₁
  refine ⟨?_, fun s₂ h₂ => ?_⟩
  · intro e he
    cases he
    refine ⟨?_, ?_, ?_⟩
    · intro insertion _ o ho
      cases ho
    · intro a ha
      cases ha
    · intro a ha
      cases ha
  · cases h₂
    refine ⟨?_, fun s₃ h₃ => ?_⟩
    · intro e he
      cases he
      refine ⟨?_, ?_, ?_⟩
      · intro insertion hinsertion
        cases hinsertion
      · intro a ha
        cases ha
      · intro a _
        exact Nat.zero_lt_succ _
    · cases h₃
      refine ⟨?_, fun s₄ h₄ => ⟨?_, trivial⟩⟩
      · intro e he
        cases he
        exact trivial
      · intro e he
        cases he
        refine ⟨?_, ?_, ?_⟩
        · intro insertion hinsertion
          cases hinsertion
        · intro a ha it hit
          cases ha
          cases hit
          have hkept : (oneByte [107]).Kept := kept_of_short (by decide) (by decide)
          exact ⟨by decide, fun o _ => hasKey_of_kept hkept (by decide)⟩
        · intro a ha
          cases ha

/-- A client reads a version, deletes the key, and another one stores it anew: `cas` does not see it. -/
theorem version_restarts :
    ¬ Always (Gets.step fun key => UInt64.ofNat key.length) Gets.Correct Gets.create
      [.other (.request ⟨[], .fresh 0, true⟩ (.call (.set (oneByte [107])))), .gets 1 [107],
        .other (.replied (0, 0)), .other (.request Gets.idle (.call (.remove [107]))),
        .other (.request ⟨[], .fresh 0, true⟩ (.call (.set (oneByte [107])))),
        .cas 1 0 ⟨[], .fresh 1, true⟩ (oneByte [107])] := by
  intro h
  have hlast := (((((h.2 _ rfl).2 _ rfl).2 _ rfl).2 _ rfl).2 _ rfl).2 _ rfl
  exact absurd (hlast (1, 3) (by decide)) (by decide)

end Netstar.Proofs.Memcached
