import Netstar.Spec.Memcached.Flight

/-!
# `Netstar.Spec.Memcached.Gets`: `gets` and `cas` of many clients

`gets` tells a client the version of an item, and the client can use it for `cas` later. Other
requests of all clients, expiry and evictions come in between.

`effects` counts for each key how often the table got another item for it, or none. It is not in the
source. So `seen` has, for each `gets` that found an item, the version that it returned and the count
at that time, and `stored` has the two counts of a `cas` that answered `STORED`: the one of its
`gets`, and the one right before the `cas`.
-/

set_option autoImplicit false

namespace Netstar.Spec.Memcached

/-- What a client knows from a `gets`. -/
structure Seen where
  client : Nat
  key : Bytes
  version : UInt64
  effects : Nat
  deriving DecidableEq, Repr

/-- The number of the item that the table has for a key. -/
def Cache.itemOf (hash : Bytes → UInt64) (s : Cache) (key : Bytes) : Option Nat :=
  (s.find hash key).bind fun a => (s.objects a).map Item.serial

/-- The cache with replies in flight, and what the clients have seen. -/
structure Gets where
  flight : Flight
  effects : Bytes → Nat
  seen : List Seen
  stored : Option (Nat × Nat)

namespace Gets

/-- A new cache, with no version given out. -/
def create : Gets := ⟨Flight.create, fun _ => 0, [], none⟩

/-- `cas` has the number of the `gets` of the client whose version it sends. -/
inductive Event where
  | gets (client : Nat) (key : Bytes)
  | cas (client : Nat) (gets : Nat) (answer : SlabAnswer) (insertion : Insertion)
  | other (e : Flight.Event)

/-- The counts after a step from one cache to another. -/
def effectsAfter (hash : Bytes → UInt64) (s : Gets) (cache : Cache) (key : Bytes) : Nat :=
  if cache.itemOf hash key = s.flight.cache.itemOf hash key then s.effects key else s.effects key + 1

/-- The allocator does nothing in a `get`. -/
def idle : SlabAnswer := ⟨[], .none, false⟩

/-- The versions that the last response tells a client. -/
def tells (hash : Bytes → UInt64) (s : Gets) (client : Nat) (key : Bytes) (flight : Flight) :
    List Seen :=
  match flight.last with
  | some (.item (some a)) =>
    (flight.cache.objects a).toList.map fun it =>
      ⟨client, key, it.version, s.effectsAfter hash flight.cache key⟩
  | _ => []

/-- The last response is `STORED`. -/
def isStored (flight : Flight) : Bool := flight.last.any Response.isStored

/-- The `gets` that a `cas` refers to. -/
def found (s : Gets) (client gets : Nat) (key : Bytes) : Option Seen :=
  (s.seen[gets]?).filter fun o => o.client = client ∧ o.key = key

/-- One event. -/
def step (hash : Bytes → UInt64) (s : Gets) : Event → Option Gets
  | .gets client key =>
    (s.flight.step hash (.request idle (.get key))).map fun flight =>
      ⟨flight, s.effectsAfter hash flight.cache, s.seen ++ s.tells hash client key flight, none⟩
  | .cas client gets answer insertion =>
    (s.found client gets insertion.key).bind fun o =>
      (s.flight.step hash (.request answer (.call (.cas insertion o.version)))).map fun flight =>
        ⟨flight, s.effectsAfter hash flight.cache, s.seen,
          if isStored flight then some (o.effects, s.effects insertion.key) else none⟩
  | .other e =>
    (s.flight.step hash e).map fun flight =>
      ⟨flight, s.effectsAfter hash flight.cache, s.seen, none⟩

/-- A `cas` that stored was right: nothing had happened to the key since its `gets`. -/
def Correct (s : Gets) : Prop := ∀ p ∈ s.stored, p.1 = p.2

/-- The event of the cache. -/
def flightEvent (s : Gets) : Event → Option Flight.Event
  | .gets _ key => some (.request idle (.get key))
  | .cas client gets answer insertion =>
    (s.found client gets insertion.key).map fun o =>
      .request answer (.call (.cas insertion o.version))
  | .other e => some e

/-- A request that does not start the versions of a key again: it makes no new item for a key of which
a client has seen a version, it replaces no item with the last version, and none under another key that
was seen, and it has room for the reference of its reply. -/
def Fresh (hash : Bytes → UInt64) (s : Gets) : Flight.Event → Prop
  | .request answer r =>
    (∀ insertion ∈ s.flight.cache.creates hash answer r, ∀ o ∈ s.seen,
        (Item.create hash insertion 1 0).hasKey hash o.key = false) ∧
      (∀ p ∈ s.flight.cache.overrides hash r, ∀ it, s.flight.cache.objects p.1 = some it →
        it.version.toNat + 1 < 2 ^ 64 ∧ ∀ o ∈ s.seen,
          (Item.create hash p.2 1 0).hasKey hash o.key = true → it.hasKey hash o.key = true) ∧
      s.flight.Countable hash r
  | .replied _ => True

/-- The condition on an event. -/
def Careful (hash : Bytes → UInt64) (s : Gets) (e : Event) : Prop :=
  ∀ e' ∈ s.flightEvent e, s.Fresh hash e'

end Gets

end Netstar.Spec.Memcached
