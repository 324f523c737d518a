import Netstar.Spec.Memcached.Request

/-!
# `Netstar.Spec.Memcached.Flight`: replies in flight

A reply of `get`, `incr` or `decr` holds a reference to its item from the call until the message is
deleted. `Flight` is a cache with the replies that hold items: each one knows the object, and the
number of the item that it got. Requests, the end of replies, evictions and expiry come in any order.

A run ends where the source has no meaning (`fault`).
-/

set_option autoImplicit false

namespace Netstar.Spec.Memcached

/-- The cache, the objects and item numbers of the replies in flight, and the last response. -/
structure Flight where
  cache : Cache
  held : List (Nat × Nat)
  last : Option Response
  fault : Option CacheFault

namespace Flight

/-- A new cache, with no request in flight. -/
def create : Flight := ⟨Cache.create, [], none, none⟩

/-- A request with what the allocator does in it, or the end of a reply. -/
inductive Event where
  | request (answer : SlabAnswer) (r : Request)
  | replied (reply : Nat × Nat)

/-- The objects of the replies. -/
def objects (s : Flight) : List Nat := s.held.map Prod.fst

/-- The reply to the last request holds its items. -/
def hold (s : Flight) (cache : Cache) (response : Response) : Flight where
  cache := cache
  held := response.held.map (fun a => (a, ((cache.objects a).map Item.serial).getD 0)) ++ s.held
  last := some response
  fault := s.fault

/-- One event. -/
def step (hash : Bytes → UInt64) (s : Flight) (e : Event) : Option Flight :=
  if s.fault.isSome then none
  else
    match e with
    | .request answer r =>
      match s.cache.request hash answer r with
      | .error .notOffered => none
      | .error fault => some { s with last := none, fault := some fault }
      | .ok (cache, response) => some (s.hold cache response)
    | .replied reply =>
      if reply ∉ s.held then none
      else
        match s.cache.release reply.1 with
        | .error fault => some { s with last := none, fault := some fault }
        | .ok cache =>
          some { s with cache := cache, held := s.held.erase reply, last := none }

/-- The allocator can evict only what is linked and what no reply holds, a reply keeps the item that
it got, and no call, in particular no eviction, hits an item that is not linked. -/
structure Safe (s : Flight) : Prop where
  lru : ∀ a ∈ s.cache.lru, a ∈ s.cache.table ∧ a ∉ s.objects
  kept : ∀ reply ∈ s.held, (s.cache.objects reply.1).map Item.serial = some reply.2
  fault : s.fault = none

/-- The table takes the new item: no linked item that stays is equal to it. -/
def Taken (hash : Bytes → UInt64) (s : Cache) (answer : SlabAnswer) (r : Request) : Prop :=
  answer.room ≠ .none → ∀ insertion ∈ s.makes hash answer r, ∀ a ∈ s.table,
    a ∉ s.unlinks hash r → a ∉ answer.victims →
      ∀ it, s.objects a = some it → (Item.create hash insertion 1 0).same it = false

/-- The counter of references is not full. -/
def Countable (hash : Bytes → UInt64) (s : Flight) (r : Request) : Prop :=
  ∀ a ∈ s.cache.referred hash r, s.objects.count a < 65534

/-- An event that unlinks no item of a reply, leaves no new item unlinked, and has room for the
reference. -/
def Careful (hash : Bytes → UInt64) (s : Flight) : Event → Prop
  | .request answer r =>
    (∀ a ∈ s.cache.unlinks hash r, a ∉ s.objects) ∧ Taken hash s.cache answer r ∧ Countable hash s r
  | .replied _ => True

end Flight

end Netstar.Spec.Memcached
