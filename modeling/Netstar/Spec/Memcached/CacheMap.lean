import Netstar.Spec.Memcached.Request

/-!
# `Netstar.Spec.Memcached.CacheMap`: the cache beside a map

A cache is a map from keys to entries. `CacheMap.call` says what each call means for the map, with
the keys that the allocator evicts in the call as an input, and with the arithmetic of `incr` and
`decr` in natural numbers.

`MapSession` runs the same calls on a cache and on a map. No reply is in flight: a reference that `incr`
or `decr` returns is given back before the next call. Keys and prefixes have at most 255 bytes. `Keeps`
says that the item which a call makes reads back as it was stored.
-/

set_option autoImplicit false

namespace Netstar.Spec.Memcached

/-- What a key is mapped to. -/
structure Entry where
  value : Bytes
  asciiPrefix : Bytes
  expiry : Option Int
  version : UInt64
  deriving DecidableEq, Repr

/-- The entry of an item. -/
def Item.entry (it : Item) : Entry := ⟨it.value, it.asciiPrefix, it.expiry, it.version⟩

/-- A map from keys to entries. -/
abbrev CacheMap := Bytes → Option Entry

namespace CacheMap

/-- The decimal digits of a number. -/
def decimal (n : Nat) : Bytes := (Nat.toDigits 10 n).map fun c => UInt8.ofNat c.toNat

/-- The keys are not mapped any more. -/
def without (m : CacheMap) (keys : List Bytes) : CacheMap := fun k => if k ∈ keys then none else m k

/-- The key is mapped to a new entry. -/
def put (m : CacheMap) (evicted : List Bytes) (key : Bytes) (e : Entry) : CacheMap :=
  Function.update (m.without evicted) key (some e)

/-- The entry of a store. -/
def entry (insertion : Insertion) (version : UInt64) : Entry :=
  ⟨insertion.data, insertion.asciiPrefix, insertion.expiry, version⟩

/-- `incr` and `decr`: a number becomes `f` of it. -/
def count (m : CacheMap) (evicted : List Bytes) (key : Bytes) (f : Nat → Nat) :
    CacheMap × CacheResult :=
  match m key with
  | none => (m, .missing)
  | some e =>
    match integral e.value with
    | none => (m, .notNumeric)
    | some value =>
      (m.put evicted key { e with value := decimal (f value.toNat), version := e.version + 1 },
        .counted (decimal (f value.toNat)))

/-- What a call means. -/
def call (m : CacheMap) (evicted : List Bytes) : CacheCall → CacheMap × CacheResult
  | .set insertion =>
    match m insertion.key with
    | some e =>
      (m.put evicted insertion.key (entry insertion (e.version + 1)), .stored (.yes true))
    | none => (m.put evicted insertion.key (entry insertion 1), .stored (.yes false))
  | .add insertion =>
    match m insertion.key with
    | some _ => (m, .stored .no)
    | none => (m.put evicted insertion.key (entry insertion 1), .stored (.yes false))
  | .replace insertion =>
    match m insertion.key with
    | some e =>
      (m.put evicted insertion.key (entry insertion (e.version + 1)), .stored (.yes true))
    | none => (m, .stored .no)
  | .cas insertion version =>
    match m insertion.key with
    | none => (m, .stored .no)
    | some e =>
      if e.version ≠ version then (m, .stored .badVersion)
      else (m.put evicted insertion.key (entry insertion (e.version + 1)), .stored (.yes true))
  | .incr key delta => m.count evicted key fun n => (n + delta.toNat) % 2 ^ 64
  | .decr key delta => m.count evicted key fun n => n - delta.toNat
  | .remove key => (m.without [key], .removed (m key).isSome)
  | .flushAll => (fun _ => none, .done)
  | .expire now => (fun k => (m k).filter fun e => !e.expiry.any (· ≤ now), .done)
  | .evict _ => (m.without evicted, .done)

end CacheMap

namespace Cache

/-- The keys of the items that the allocator evicts in a call. -/
def evictedKeys (s : Cache) (answer : SlabAnswer) : CacheCall → List Bytes
  | .evict a => ((s.objects a).map Item.key).toList
  | _ => answer.victims.filterMap fun a => (s.objects a).map Item.key

end Cache

/-- The cache, the map, and what they answered in the last call. -/
structure MapSession where
  cache : Cache
  map : CacheMap
  last : Option (CacheResult × CacheResult)
  fault : Option CacheFault

namespace MapSession

/-- A session with an empty cache. -/
def create : MapSession := ⟨Cache.create, fun _ => none, none, none⟩

/-- The 8-bit sizes of an item are enough. -/
def Fits (insertion : Insertion) : Prop :=
  insertion.key.length ≤ 255 ∧ insertion.asciiPrefix.length ≤ 255

/-- Whether an insertion fits can be computed. -/
instance (insertion : Insertion) : Decidable (Fits insertion) :=
  inferInstanceAs (Decidable (_ ∧ _))

/-- The call is one with short keys and prefixes. -/
def Allowed : CacheCall → Prop
  | .set insertion => Fits insertion
  | .add insertion => Fits insertion
  | .replace insertion => Fits insertion
  | .cas insertion _ => Fits insertion
  | _ => True

/-- Whether a call is allowed can be computed. -/
instance (c : CacheCall) : Decidable (Allowed c) := by
  cases c <;> simp only [Allowed] <;> infer_instance

/-- One call. The allocator has room, and it evicts only what it can. -/
def step (hash : Bytes → UInt64) (s : MapSession) (e : SlabAnswer × CacheCall) :
    Option MapSession :=
  if s.fault.isSome ∨ e.1.room = .none ∨ ¬ Allowed e.2 then none
  else
    match s.cache.call hash e.1 e.2 with
    | .error .notOffered => none
    | .error fault => some { s with fault := some fault }
    | .ok (cache, result) =>
      let m := s.map.call (s.cache.evictedKeys e.1 e.2) e.2
      some { s with cache := cache, map := m.1, last := some (result, m.2) }

/-- What a call makes an item of can be read back from it. -/
def Keeps (hash : Bytes → UInt64) (s : MapSession) (e : SlabAnswer × CacheCall) : Prop :=
  ∀ insertion ∈ s.cache.makes hash e.1 (.call e.2), insertion.Kept

/-- Whether a call keeps the fields of its insertion apart can be computed. -/
instance decidableKeeps (hash : Bytes → UInt64) (s : MapSession) (e : SlabAnswer × CacheCall) :
    Decidable (Keeps hash s e) :=
  inferInstanceAs (Decidable (∀ insertion ∈ s.cache.makes hash e.1 (.call e.2), insertion.Kept))

/-- The size of the item in an object. -/
def sizeOf (s : Cache) (a : Nat) : Nat := ((s.objects a).map Item.size).getD 0

/-- The cache is the map, and it answers what the map answers. -/
structure Correct (hash : Bytes → UInt64) (s : MapSession) : Prop where
  fault : s.fault = none
  results : ∀ r ∈ s.last, r.1 = r.2
  found : ∀ key, (s.cache.find hash key).bind (fun a => (s.cache.objects a).map Item.entry) = s.map key
  items : ∀ a it, s.cache.objects a = some it → a ∈ s.cache.table ∧ s.map it.key = some it.entry
  linked : s.cache.table.Nodup ∧ ∀ a ∈ s.cache.table, (s.cache.objects a).isSome
  unique : ∀ a b it it', s.cache.objects a = some it → s.cache.objects b = some it' →
    it.key = it'.key → a = b
  bytes : s.cache.stats.bytes = UInt64.ofNat (s.cache.table.map (sizeOf s.cache)).sum
  alive : s.cache.alive.Nodup ∧ ∀ a, a ∈ s.cache.alive ↔
    ∃ it, s.cache.objects a = some it ∧ it.expiry.isSome

end MapSession

end Netstar.Spec.Memcached
