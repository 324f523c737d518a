import Netstar.Spec.Memcached.Cache

/-!
# `Netstar.Spec.Memcached.Request`: calls and requests

The calls of the cache and what they answer. `Cache.call` gives the reference of `incr` and `decr` back
at once. `Cache.request` leaves it to the reply.

`Cache.creates`, `Cache.overrides` and `Cache.unlinks` say before a request which items it is going to
make, replace and take out of the table.
-/

set_option autoImplicit false

namespace Netstar.Spec.Memcached

/-- The calls. `evict` is an eviction that no call of the cache asked for. -/
inductive CacheCall where
  | set (insertion : Insertion)
  | add (insertion : Insertion)
  | replace (insertion : Insertion)
  | cas (insertion : Insertion) (version : UInt64)
  | incr (key : Bytes) (delta : UInt64)
  | decr (key : Bytes) (delta : UInt64)
  | remove (key : Bytes)
  | flushAll
  | expire (now : Int)
  | evict (a : Nat)

/-- What a call answers. -/
inductive CacheResult where
  | stored (result : Cache.Stored)
  | missing
  | notNumeric
  | counted (value : Bytes)
  | removed (found : Bool)
  | threw
  | done
  deriving DecidableEq, Repr

namespace Cache

/-- The reply of `incr` and `decr` is written, and its reference goes. -/
def reply (r : Cache × Counted) : Except CacheFault (Cache × CacheResult) :=
  match r with
  | (s, .missing) => .ok (s, .missing)
  | (s, .threw) => .ok (s, .threw)
  | (s, .notNumeric a) => do
    let s ← s.release a
    return (s, .notNumeric)
  | (s, .done a) => do
    let it ← s.deref a
    let s ← s.release a
    return (s, .counted it.value)

/-- A call on the cache. -/
def call (hash : Bytes → UInt64) (s : Cache) (answer : SlabAnswer) :
    CacheCall → Except CacheFault (Cache × CacheResult)
  | .set insertion => (s.set hash answer insertion).map fun r => (r.1, .stored r.2)
  | .add insertion => (s.add hash answer insertion).map fun r => (r.1, .stored r.2)
  | .replace insertion => (s.replace hash answer insertion).map fun r => (r.1, .stored r.2)
  | .cas insertion version => (s.cas hash answer insertion version).map fun r => (r.1, .stored r.2)
  | .incr key delta => s.incr hash answer key delta >>= reply
  | .decr key delta => s.decr hash answer key delta >>= reply
  | .remove key => (s.remove hash key).map fun r => (r.1, .removed r.2)
  | .flushAll => s.flushAll.map fun s => (s, .done)
  | .expire now => (s.expire now).map fun s => (s, .done)
  | .evict a => (s.evict a).map fun s => (s, .done)

end Cache

/-- What the clients, the timer and the allocator ask for. -/
inductive Request where
  | get (key : Bytes)
  | call (c : CacheCall)

/-- What a request returns. -/
inductive Response where
  | item (a : Option Nat)
  | counted (count : Cache.Counted)
  | result (result : CacheResult)
  deriving DecidableEq, Repr

/-- The items that the reply of `incr` or `decr` holds. -/
def Cache.Counted.held : Cache.Counted → List Nat
  | .notNumeric a => [a]
  | .done a => [a]
  | _ => []

/-- The items that a reply holds. -/
def Response.held : Response → List Nat
  | .item a => a.toList
  | .counted count => count.held
  | .result _ => []

/-- A store took effect. -/
def Response.isStored : Response → Bool
  | .counted (.done _) => true
  | .result (.stored (.yes _)) => true
  | _ => false

namespace Cache

/-- A request. The references of its reply are not given back. -/
def request (hash : Bytes → UInt64) (s : Cache) (answer : SlabAnswer) :
    Request → Except CacheFault (Cache × Response)
  | .get key => (s.get hash key).map fun r => (r.1, .item r.2)
  | .call (.incr key delta) => (s.incr hash answer key delta).map fun r => (r.1, .counted r.2)
  | .call (.decr key delta) => (s.decr hash answer key delta).map fun r => (r.1, .counted r.2)
  | .call c => (s.call hash answer c).map fun r => (r.1, .result r.2)

/-! ### What a request is going to do -/

/-- The data of a new item, if the key is not in the table and there is room. -/
def fresh (hash : Bytes → UInt64) (s : Cache) (answer : SlabAnswer) (insertion : Insertion) :
    Option Insertion :=
  if (s.find hash insertion.key).isNone ∧ answer.room ≠ .none then some insertion else none

/-- The data of a new item for a key that is not in the table. -/
def creates (hash : Bytes → UInt64) (s : Cache) (answer : SlabAnswer) : Request → Option Insertion
  | .call (.set insertion) => s.fresh hash answer insertion
  | .call (.add insertion) => s.fresh hash answer insertion
  | _ => none

/-- The item that `incr` or `decr` replaces, and the data of the new one. -/
def counts (hash : Bytes → UInt64) (s : Cache) (key : Bytes) (f : UInt64 → UInt64) :
    Option (Nat × Insertion) := do
  let a ← s.find hash key
  let it ← s.objects a
  let value ← it.dataAsIntegral
  let new := f value
  return (a, renewed key it new (toSstring_length_lt new))

/-- The item that a store replaces, and the data of the new one. -/
def overrides (hash : Bytes → UInt64) (s : Cache) : Request → Option (Nat × Insertion)
  | .call (.set insertion) => (s.find hash insertion.key).map (·, insertion)
  | .call (.replace insertion) => (s.find hash insertion.key).map (·, insertion)
  | .call (.cas insertion version) =>
    ((s.find hash insertion.key).filter fun a => (s.objects a).any (·.version == version)).map
      (·, insertion)
  | .call (.incr key delta) => s.counts hash key (· + delta)
  | .call (.decr key delta) => s.counts hash key fun value => value - min value delta
  | _ => none

/-- The items that a request takes out of the table, evictions apart. -/
def unlinks (hash : Bytes → UInt64) (s : Cache) : Request → List Nat
  | .call (.remove key) => (s.find hash key).toList
  | .call .flushAll => s.table
  | .call (.expire now) => s.due now
  | r => ((s.overrides hash r).map Prod.fst).toList

/-- The data of the item that a request makes, if there is room. -/
def makes (hash : Bytes → UInt64) (s : Cache) (answer : SlabAnswer) (r : Request) :
    Option Insertion :=
  (s.creates hash answer r).or ((s.overrides hash r).map Prod.snd)

/-- The item that is in the table when the reply takes a reference to it. -/
def referred (hash : Bytes → UInt64) (s : Cache) : Request → Option Nat
  | .get key => s.find hash key
  | .call (.incr key _) => s.find hash key
  | .call (.decr key _) => s.find hash key
  | _ => none

end Cache

end Netstar.Spec.Memcached
