import Mathlib.Algebra.Order.Ring.Int
import Mathlib.Logic.Function.Basic
import Netstar.Spec.Memcached.Item

/-!
# `Netstar.Spec.Memcached.Cache`: `cache` of memcached

An item lives in an object of the slab allocator, and the number of the object stands for its
address. `table` has the items of `_cache`, `alive` those of the timer set, and `lru` those in the
LRU lists of the slab classes.

What the allocator decides is an input of each call that creates an item (`SlabAnswer`): which
items the reclaimer evicts in the meantime, and then a free object, or the object of an item that
is evicted for it, or no memory. The allocator takes only items that are in an LRU list, and only
objects that are not in use; otherwise the answer is not one that it gives.

The lists are intrusive. To unlink what is not linked, or to link what is linked already, has no
meaning, and neither has the use of a freed object.
-/

set_option autoImplicit false

namespace Netstar.Spec.Memcached

/-- Why a call has no result. -/
inductive CacheFault where
  | notLinked
  | linkedTwice
  | badPointer
  | assertion
  | notOffered
  deriving DecidableEq, Repr

/-! ### The cache -/

/-- `cache_stats`. -/
structure CacheStats where
  getHits : Nat
  getMisses : Nat
  setAdds : Nat
  setReplaces : Nat
  casHits : Nat
  casMisses : Nat
  casBadval : Nat
  deleteMisses : Nat
  deleteHits : Nat
  incrMisses : Nat
  incrHits : Nat
  decrMisses : Nat
  decrHits : Nat
  expired : Nat
  evicted : Nat
  bytes : UInt64
  resizeFailure : Nat
  deriving DecidableEq, Repr

/-- The statistics of a new cache. -/
def CacheStats.zero : CacheStats := ⟨0, 0, 0, 0, 0, 0, 0, 0, 0, 0, 0, 0, 0, 0, 0, 0, 0⟩

/-- `cache`, with the objects of the slab allocator and its LRU lists. -/
structure Cache where
  objects : Nat → Option Item
  lru : List Nat
  table : List Nat
  alive : List Nat
  bucketCount : Nat
  resizeUpThreshold : Nat
  stats : CacheStats
  created : Nat

/-- Where the allocator puts a new item. -/
inductive Room where
  | fresh (a : Nat)
  | evict (a : Nat)
  | none
  deriving DecidableEq, Repr

/-- What the slab allocator does in one call of `create`, and if the table gets new buckets. -/
structure SlabAnswer where
  reclaimed : List Nat
  room : Room
  buckets : Bool
  deriving DecidableEq, Repr

/-- The items that one call of the allocator evicts. -/
def SlabAnswer.victims (answer : SlabAnswer) : List Nat :=
  answer.reclaimed ++ match answer.room with
    | .evict a => [a]
    | _ => []

namespace Cache

/-- `cache()`. -/
def create : Cache := ⟨fun _ => none, [], [], [], 1024, 768, .zero, 0⟩

/-- The item in an object. -/
def deref (s : Cache) (a : Nat) : Except CacheFault Item :=
  match s.objects a with
  | none => .error .badPointer
  | some it => .ok it

/-- Writing an object. -/
def store (s : Cache) (a : Nat) (it : Item) : Cache :=
  { s with objects := Function.update s.objects a (some it) }

/-- `slab_class::remove_item_from_lru`. -/
def removeFromLru (s : Cache) (a : Nat) : Except CacheFault Cache :=
  if a ∈ s.lru then .ok { s with lru := s.lru.erase a } else .error .notLinked

/-- `slab_class::insert_item_into_lru`. -/
def insertIntoLru (s : Cache) (a : Nat) : Except CacheFault Cache :=
  if a ∈ s.lru then .error .linkedTwice else .ok { s with lru := a :: s.lru }

/-- `slab_allocator::free`. -/
def slabFree (s : Cache) (a : Nat) : Except CacheFault Cache := do
  let s ← s.removeFromLru a
  return { s with objects := Function.update s.objects a none }

/-- `intrusive_ptr_add_ref`. -/
def addRef (s : Cache) (a : Nat) : Except CacheFault Cache := do
  let it ← s.deref a
  let s := s.store a { it with refCount := it.refCount + 1 }
  if it.refCount + 1 = 2 then s.removeFromLru a else return s

/-- `intrusive_ptr_release`. -/
def release (s : Cache) (a : Nat) : Except CacheFault Cache := do
  let it ← s.deref a
  let s := s.store a { it with refCount := it.refCount - 1 }
  if it.refCount - 1 = 1 then s.insertIntoLru a
  else if it.refCount - 1 = 0 then s.slabFree a
  else return s

/-- `_cache.erase`, if the item is in the table. -/
def unlinkTable (inCache : Bool) (s : Cache) (a : Nat) : Except CacheFault Cache :=
  if inCache then
    if a ∈ s.table then .ok { s with table := s.table.erase a } else .error .notLinked
  else .ok s

/-- `_alive.remove`, if the item is in the timer set. -/
def unlinkAlive (inTimerList : Bool) (s : Cache) (a : Nat) : Except CacheFault Cache :=
  if inTimerList then
    if a ∈ s.alive then .ok { s with alive := s.alive.erase a } else .error .notLinked
  else .ok s

/-- `erase<IsInCache, IsInTimerList, Release>`. -/
def erase (inCache inTimerList rel : Bool) (s : Cache) (a : Nat) : Except CacheFault Cache := do
  let it ← s.deref a
  let s ← s.unlinkTable inCache a
  let s ← s.unlinkAlive (inTimerList && it.expiry.isSome) a
  let s := { s with stats.bytes := s.stats.bytes - UInt64.ofNat it.size }
  if rel then s.release a else return s

/-- The allocator evicts an item: it leaves the LRU list, and the callback takes it out of the cache. -/
def evict (s : Cache) (a : Nat) : Except CacheFault Cache := do
  if a ∉ s.lru then throw .notOffered
  let it ← s.deref a
  if it.refCount ≠ 1 then throw .assertion
  let s ← s.removeFromLru a
  let s ← s.erase true true false a
  return { s with
    stats.evicted := s.stats.evicted + 1, objects := Function.update s.objects a none }

/-- `slab_class::create_item`. -/
def createItem (s : Cache) (a : Nat) (it : Item) : Cache :=
  { s.store a it with lru := a :: s.lru, created := s.created + 1 }

/-- `slab_allocator::create`. Without room it throws `bad_alloc`. -/
def slabCreate (s : Cache) (answer : SlabAnswer) (it : Item) :
    Except CacheFault (Cache × Option Nat) := do
  let s ← answer.reclaimed.foldlM evict s
  match answer.room with
  | .none => return (s, none)
  | .fresh a =>
    if (s.objects a).isSome then throw .notOffered
    return (s.createItem a it, some a)
  | .evict a => do
    let s ← s.evict a
    return (s.createItem a it, some a)

/-- The items with a property, in an object of the list. -/
def findItem (s : Cache) (l : List Nat) (p : Item → Bool) : Option Nat :=
  l.find? fun a => (s.objects a).any p

/-- `find`. -/
def find (hash : Bytes → UInt64) (s : Cache) (key : Bytes) : Option Nat :=
  s.findItem s.table (Item.hasKey hash key)

/-- `_alive.insert`, if the item expires. -/
def insertAlive (s : Cache) (a : Nat) (expiry : Option Int) : Except CacheFault Cache :=
  if expiry.isSome then
    if a ∈ s.alive then .error .linkedTwice else .ok { s with alive := a :: s.alive }
  else .ok s

/-- `add_overriding` of the item in object `a`. The result is the new object, or `none` when there was
no memory. -/
def addOverriding (hash : Bytes → UInt64) (s : Cache) (answer : SlabAnswer) (a : Nat)
    (insertion : Insertion) : Except CacheFault (Cache × Option Nat) := do
  let old ← s.deref a
  -- The old item goes before there is memory for the new one.
  let s ← s.erase true true true a
  let it := Item.create hash insertion (old.version + 1) s.created
  match ← s.slabCreate answer it with
  | (s, none) => return (s, none)
  | (s, some b) => do
    let s ← s.addRef b
    if (s.findItem s.table it.same).isSome then throw .assertion
    let s := { s with table := b :: s.table }
    let s ← s.insertAlive b insertion.expiry
    return ({ s with stats.bytes := s.stats.bytes + UInt64.ofNat insertion.size }, some b)

/-- `maybe_rehash`. -/
def maybeRehash (s : Cache) (buckets : Bool) : Cache :=
  if s.table.length ≥ s.resizeUpThreshold then
    if buckets then
      { s with
        bucketCount := s.bucketCount * 2
        resizeUpThreshold := s.bucketCount * 2 * 3 / 4 }
    else { s with stats.resizeFailure := s.stats.resizeFailure + 1 }
  else s

/-- `add_new`. An item that is equal to one in the table is not linked, and nobody looks at this. -/
def addNew (hash : Bytes → UInt64) (s : Cache) (answer : SlabAnswer) (insertion : Insertion) :
    Except CacheFault (Cache × Option Nat) := do
  let it := Item.create hash insertion 1 s.created
  match ← s.slabCreate answer it with
  | (s, none) => return (s, none)
  | (s, some b) => do
    let s ← s.addRef b
    let s := if (s.findItem s.table it.same).isSome then s else { s with table := b :: s.table }
    let s ← s.insertAlive b insertion.expiry
    let s := { s with stats.bytes := s.stats.bytes + UInt64.ofNat insertion.size }
    return (s.maybeRehash answer.buckets, some b)

/-- The answer to a store. `threw` is `bad_alloc`. -/
inductive Stored where
  | yes (replaced : Bool)
  | no
  | badVersion
  | threw
  deriving DecidableEq, Repr

/-- `set`. -/
def set (hash : Bytes → UInt64) (s : Cache) (answer : SlabAnswer) (insertion : Insertion) :
    Except CacheFault (Cache × Stored) :=
  match s.find hash insertion.key with
  | some a => do
    match ← s.addOverriding hash answer a insertion with
    | (s, none) => return (s, .threw)
    | (s, some _) => return ({ s with stats.setReplaces := s.stats.setReplaces + 1 }, .yes true)
  | none => do
    match ← s.addNew hash answer insertion with
    | (s, none) => return (s, .threw)
    | (s, some _) => return ({ s with stats.setAdds := s.stats.setAdds + 1 }, .yes false)

/-- `add`. -/
def add (hash : Bytes → UInt64) (s : Cache) (answer : SlabAnswer) (insertion : Insertion) :
    Except CacheFault (Cache × Stored) :=
  match s.find hash insertion.key with
  | some _ => .ok (s, .no)
  | none => do
    let s := { s with stats.setAdds := s.stats.setAdds + 1 }
    match ← s.addNew hash answer insertion with
    | (s, none) => return (s, .threw)
    | (s, some _) => return (s, .yes false)

/-- `replace`. -/
def replace (hash : Bytes → UInt64) (s : Cache) (answer : SlabAnswer) (insertion : Insertion) :
    Except CacheFault (Cache × Stored) :=
  match s.find hash insertion.key with
  | none => .ok (s, .no)
  | some a => do
    let s := { s with stats.setReplaces := s.stats.setReplaces + 1 }
    match ← s.addOverriding hash answer a insertion with
    | (s, none) => return (s, .threw)
    | (s, some _) => return (s, .yes true)

/-- `cas`. -/
def cas (hash : Bytes → UInt64) (s : Cache) (answer : SlabAnswer) (insertion : Insertion)
    (version : UInt64) : Except CacheFault (Cache × Stored) :=
  match s.find hash insertion.key with
  | none => .ok ({ s with stats.casMisses := s.stats.casMisses + 1 }, .no)
  | some a => do
    let it ← s.deref a
    if it.version ≠ version then
      return ({ s with stats.casBadval := s.stats.casBadval + 1 }, .badVersion)
    let s := { s with stats.casHits := s.stats.casHits + 1 }
    match ← s.addOverriding hash answer a insertion with
    | (s, none) => return (s, .threw)
    | (s, some _) => return (s, .yes true)

/-- `remove`. -/
def remove (hash : Bytes → UInt64) (s : Cache) (key : Bytes) : Except CacheFault (Cache × Bool) :=
  match s.find hash key with
  | none => .ok ({ s with stats.deleteMisses := s.stats.deleteMisses + 1 }, false)
  | some a => do
    let s := { s with stats.deleteHits := s.stats.deleteHits + 1 }
    let s ← s.erase true true true a
    return (s, true)

/-- `get`: the caller gets a reference to the item. -/
def get (hash : Bytes → UInt64) (s : Cache) (key : Bytes) :
    Except CacheFault (Cache × Option Nat) :=
  match s.find hash key with
  | none => .ok ({ s with stats.getMisses := s.stats.getMisses + 1 }, none)
  | some a => do
    let s ← { s with stats.getHits := s.stats.getHits + 1 }.addRef a
    return (s, some a)

/-- The answer to `incr` and `decr`. The caller gets a reference to the item unless it was missing or
there was no memory. -/
inductive Counted where
  | missing
  | notNumeric (a : Nat)
  | done (a : Nat)
  | threw
  deriving DecidableEq, Repr

/-- The item after `incr` or `decr`: its data is the new number, and the rest is as before. -/
def renewed (key : Bytes) (it : Item) (value : UInt64)
    (h : (toSstring value).length < 2 ^ 32) : Insertion :=
  ⟨key, it.asciiPrefix, toSstring value, it.expiry, h⟩

/-- A 64-bit number has at most 20 digits. -/
theorem toSstring_length_lt (n : UInt64) : (toSstring n).length < 2 ^ 32 := by
  have hle : (Nat.toDigits 10 n.toNat).length ≤ 20 := by
    apply (Nat.length_toDigits_le_iff (by decide) (by decide)).mpr
    have := n.toNat_lt
    omega
  rw [toSstring, List.length_map]
  omega

/-- The end of `incr` and `decr`, for the new value `f value`. -/
def count (hash : Bytes → UInt64) (s : Cache) (answer : SlabAnswer) (key : Bytes) (a : Nat)
    (f : UInt64 → UInt64) : Except CacheFault (Cache × Counted) := do
  let it ← s.deref a
  match it.dataAsIntegral with
  -- The reply shows the item, so it takes a reference.
  | none => do
    let s ← s.addRef a
    return (s, .notNumeric a)
  | some value => do
    match ← s.addOverriding hash answer a (renewed key it (f value) (toSstring_length_lt _)) with
    | (s, none) => return (s, .threw)
    | (s, some b) => do
      let s ← s.addRef b
      return (s, .done b)

/-- `incr`. -/
def incr (hash : Bytes → UInt64) (s : Cache) (answer : SlabAnswer) (key : Bytes) (delta : UInt64) :
    Except CacheFault (Cache × Counted) :=
  match s.find hash key with
  | none => .ok ({ s with stats.incrMisses := s.stats.incrMisses + 1 }, .missing)
  | some a =>
    { s with stats.incrHits := s.stats.incrHits + 1 }.count hash answer key a fun value =>
      value + delta

/-- `decr`. -/
def decr (hash : Bytes → UInt64) (s : Cache) (answer : SlabAnswer) (key : Bytes) (delta : UInt64) :
    Except CacheFault (Cache × Counted) :=
  match s.find hash key with
  | none => .ok ({ s with stats.decrMisses := s.stats.decrMisses + 1 }, .missing)
  | some a =>
    { s with stats.decrHits := s.stats.decrHits + 1 }.count hash answer key a fun value =>
      value - min value delta

/-- The round of `expire` for one item that the timer set has given up. -/
def expireOne (s : Cache) (a : Nat) : Except CacheFault Cache := do
  let s ← s.erase true false true a
  return { s with stats.expired := s.stats.expired + 1 }

/-- The items of the timer set that are due. -/
def due (s : Cache) (now : Int) : List Nat :=
  s.alive.filter fun a => (s.objects a).any fun it => it.expiry.any (· ≤ now)

/-- `expire`. -/
def expire (s : Cache) (now : Int) : Except CacheFault Cache :=
  let exp := s.due now
  exp.foldlM expireOne { s with alive := s.alive.filter (· ∉ exp) }

/-- `flush_all`. The table gives up its items one by one. -/
def flushAll (s : Cache) : Except CacheFault Cache :=
  s.table.foldlM (erase false true true) { s with table := [] }

end Cache

end Netstar.Spec.Memcached
