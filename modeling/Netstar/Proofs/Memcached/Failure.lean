import Netstar.Proofs.Memcached.Flight
import Netstar.Spec.Memcached.CacheMap
import Netstar.Spec.Memcached.Failure

/-!
# `Netstar.Proofs.Memcached.Failure`: what a failed store leaves

`add_overriding` erases the old item and then asks the allocator for a new one. When there is no memory,
the exception leaves the cache without the old item. `add_new` has nothing to erase, so a failed store
of a new key changes nothing but the evictions of the allocator.

An eviction has no meaning when its item is in an LRU list but not in the table, as it is the case for
an item that was deleted while a reply held it.
-/

set_option autoImplicit false

namespace Netstar.Proofs.Memcached

open Netstar.Lib
open Netstar.Spec.Memcached

variable {hash : Bytes → UInt64} {s s' s₀ s₁ : Cache} {a b : Nat} {it old : Item}
  {held leaked vs : List Nat} {insertion : Insertion} {answer : SlabAnswer} {r : Request}

/-- The keys and entries of the items in some objects. -/
def entriesOf (s : Cache) (l : List Nat) : List (Bytes × Entry) :=
  l.filterMap fun a => (item s a).map fun it => (it.key, it.entry)

/-- No item has as many references as its counter can count. -/
def CountsReferences (hash : Bytes → UInt64) (s : Flight) : Flight.Event → Prop
  | .request _ r => s.Countable hash r
  | .replied _ => True

section

variable (h : Inv s held leaked s.table []) (hroom : answer.room = .none)
include h hroom

end

section

variable (h : Inv s held leaked s.table []) (hroom : answer.room = .none)
include h hroom

end

/-! ### Runs -/

/-- The references and links are in order, unless the run has ended. -/
def Ordered (s : Flight) : Prop :=
  s.fault = none → ∃ leaked, Inv s.cache s.objects leaked s.cache.table []

/-- A new cache meets the invariant. -/
theorem Ordered.create : Ordered Flight.create :=
  fun _ => ⟨[], Inv.create⟩

/-- What a request does to a run. -/
theorem step_request {s t : Flight} {r : Request} (hstep : s.step hash (.request answer r) = some t) :
    s.fault = none ∧
      ((∃ e, s.cache.request hash answer r = .error e ∧ e ≠ .notOffered ∧
          t = { s with last := none, fault := some e }) ∨
        ∃ cache response, s.cache.request hash answer r = .ok (cache, response) ∧
          t = s.hold cache response) := by
  rw [Flight.step.eq_def] at hstep
  split at hstep
  · cases hstep
  · rename_i hfault
    refine ⟨Option.not_isSome_iff_eq_none.mp hfault, ?_⟩
    show _ ∨ _
    cases hrequest : s.cache.request hash answer r with
    | error e =>
      simp only [hrequest] at hstep
      split at hstep
      · cases hstep
      · rename_i e' hne he
        cases he
        cases hstep
        exact .inl ⟨e, rfl, hne, rfl⟩
      · rename_i hok
        cases hok
    | ok p =>
      simp only [hrequest] at hstep
      cases hstep
      exact .inr ⟨p.1, p.2, rfl, rfl⟩

/-- What the end of a reply does to a run. -/
theorem step_replied {s t : Flight} {reply : Nat × Nat} (hstep : s.step hash (.replied reply) = some t) :
    s.fault = none ∧ reply ∈ s.held ∧
      ((∃ e, s.cache.release reply.1 = .error e ∧ t = { s with last := none, fault := some e }) ∨
        ∃ cache, s.cache.release reply.1 = .ok cache ∧
          t = { s with cache := cache, held := s.held.erase reply, last := none }) := by
  rw [Flight.step.eq_def] at hstep
  split at hstep
  · cases hstep
  · rename_i hfault
    simp only at hstep
    split at hstep
    · cases hstep
    · rename_i hreply
      refine ⟨Option.not_isSome_iff_eq_none.mp hfault, not_not.mp hreply, ?_⟩
      cases hrelease : s.cache.release reply.1 with
      | error e =>
        rw [hrelease] at hstep
        cases hstep
        exact .inl ⟨e, rfl, rfl⟩
      | ok cache =>
        rw [hrelease] at hstep
        cases hstep
        exact .inr ⟨cache, rfl, rfl⟩

/-- A reply ends. -/
theorem Ordered.replied {s t : Flight} {reply : Nat × Nat} (h : Ordered s)
    (hstep : s.step hash (.replied reply) = some t) : Ordered t := by
  obtain ⟨hfault, hreply, ⟨e, -, rfl⟩ | ⟨cache, hrelease, rfl⟩⟩ := step_replied hstep
  · exact fun hnone => (nomatch hnone)
  · intro _
    obtain ⟨leaked, hinv⟩ := h hfault
    have hperm : s.objects.Perm (reply.1 :: (s.held.erase reply).map Prod.fst) :=
      (List.perm_cons_erase hreply).map Prod.fst
    obtain ⟨cache', hok, hinv', hsame, -⟩ := (hinv.perm hperm).release
    cases hrelease.symm.trans hok
    refine ⟨leaked, ?_⟩
    show Inv cache ((s.held.erase reply).map Prod.fst) leaked cache.table []
    rw [hsame.table]
    exact hinv'

/-- A request is made. -/
theorem Ordered.request {s t : Flight} {r : Request} (h : Ordered s) (hcount : s.Countable hash r)
    (hstep : s.step hash (.request answer r) = some t) : Ordered t := by
  obtain ⟨hfault, ⟨e, -, -, rfl⟩ | ⟨cache, response, hrequest, rfl⟩⟩ := step_request hstep
  · exact fun hnone => (nomatch hnone)
  · intro _
    obtain ⟨leaked, hinv⟩ := h hfault
    have hdoes := request_does hinv answer r hcount
    rw [hrequest] at hdoes
    obtain ⟨leaked', -, hinv'⟩ := hdoes.1.inv
    refine ⟨leaked', ?_⟩
    rw [Flight.hold_objects]
    exact hinv'

/-- Every step of a run whose references are counted keeps the invariant of the cache, unless it
fails. -/
theorem Ordered.step {s t : Flight} {e : Flight.Event} (h : Ordered s)
    (hcount : CountsReferences hash s e) (hstep : s.step hash e = some t) : Ordered t := by
  cases e with
  | request answer r => exact h.request hcount hstep
  | replied reply => exact h.replied hstep

end Netstar.Proofs.Memcached
