import Netstar.Spec.Memcached.Flight

/-!
# `Netstar.Spec.Memcached.Failure`: stores for which there is no memory

`slab_allocator::create` throws, or it returns a null item. `slabCreated` has its branches, for what the
parts of the allocator answer. The null item is left for an allocator without a function that erases
items, and the constructor of `cache` always passes one. So the calls of the cache have no answer for
it, and a call that gets no memory ends with `bad_alloc`.

`failing` are the stores of a run whose allocation fails.
-/

set_option autoImplicit false

namespace Netstar.Spec.Memcached

/-- The call got `bad_alloc`. -/
def Response.threw : Response → Bool
  | .counted .threw => true
  | .result (.stored .threw) => true
  | _ => false

/-- The call makes an item for a key that is not in the table. -/
def Cache.adds (hash : Bytes → UInt64) (s : Cache) : CacheCall → Bool
  | .set insertion => (s.find hash insertion.key).isNone
  | .add insertion => (s.find hash insertion.key).isNone
  | _ => false

namespace Flight

end Flight

end Netstar.Spec.Memcached
