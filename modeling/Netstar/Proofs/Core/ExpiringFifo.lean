import Netstar.Spec.Core.ExpiringFifo

/-!
# `Netstar.Proofs.Core.ExpiringFifo`: the entries that have not expired

`live` is the list that an expiring queue stands for. In a well-formed queue the first entry has not
expired and `_size` counts the live ones, so `front` and `empty` are those of the list. Every
operation keeps the queue well formed: a push appends, a pop removes the first element and an expiry
removes one from anywhere.
-/

set_option autoImplicit false

namespace Netstar.Spec.Core.ExpiringFifo

variable {α : Type} {q r : ExpiringFifo α} {x : α}

/-- The payloads that have not expired. -/
def live (q : ExpiringFifo α) : List α := q.list.filterMap (·.payload)

/-- "There is an invariant that the front element is never expired." -/
structure WellFormed (q : ExpiringFifo α) : Prop where
  size_eq : q.size = q.live.length
  front_isSome : ∀ e ∈ q.list.head?, e.payload.isSome

/-- A new queue is empty. -/
theorem WellFormed.create : (ExpiringFifo.create : ExpiringFifo α).WellFormed where
  size_eq := rfl
  front_isSome := fun e he => by simp [ExpiringFifo.create] at he

/-- `empty` tells whether elements are alive. -/
theorem WellFormed.empty_iff (h : q.WellFormed) : q.empty = true ↔ q.live = [] := by
  rw [empty, h.size_eq, beq_iff_eq, List.length_eq_zero_iff]

/-- `front` is the first element that is alive. -/
theorem WellFormed.front_eq (h : q.WellFormed) : q.front = q.live.head? := by
  cases hlist : q.list with
  | nil => simp [front, live, hlist]
  | cons e es =>
    obtain ⟨x, hx⟩ := Option.isSome_iff_exists.mp (h.front_isSome e (by simp [hlist]))
    simp [front, live, hlist, hx]

/-- Dropping the expired entries at the front makes the queue well formed. -/
theorem WellFormed.dropExpiredFront (hsize : q.size = q.live.length) :
    q.dropExpiredFront.WellFormed ∧ q.dropExpiredFront.live = q.live := by
  have hlive : q.dropExpiredFront.live = q.live := by
    have hsplit := List.takeWhile_append_dropWhile (p := fun e => e.payload.isNone) (l := q.list)
    have hnone : (q.list.takeWhile fun e => e.payload.isNone).filterMap (·.payload) = [] := by
      rw [List.filterMap_eq_nil_iff]
      intro e he
      have hexpired := List.all_takeWhile (p := fun e : FifoEntry α => e.payload.isNone) (l := q.list)
      simpa using List.all_eq_true.mp hexpired e he
    show (q.list.dropWhile _).filterMap _ = q.list.filterMap _
    conv_rhs => rw [← hsplit]
    rw [List.filterMap_append, hnone, List.nil_append]
  refine ⟨⟨hsize.trans (by rw [hlive]), fun e he => ?_⟩, hlive⟩
  have hhead : (q.list.dropWhile fun e => e.payload.isNone).head? = some e := he
  have hfalse := List.head?_dropWhile_not (fun e : FifoEntry α => e.payload.isNone) q.list
  rw [hhead] at hfalse
  simpa using hfalse

/-- A new element comes last. -/
theorem WellFormed.pushBack (h : q.WellFormed) (x : α) (expires : Bool) :
    (q.pushBack x expires).WellFormed ∧ (q.pushBack x expires).live = q.live ++ [x] := by
  have hlive : (q.pushBack x expires).live = q.live ++ [x] := by
    simp [live, ExpiringFifo.pushBack]
  refine ⟨⟨?_, fun e he => ?_⟩, hlive⟩
  · rw [hlive, List.length_append, ← h.size_eq]
    rfl
  · cases hlist : q.list with
    | nil =>
      obtain rfl : ⟨some x, expires⟩ = e := by simpa [ExpiringFifo.pushBack, hlist] using he
      rfl
    | cons e' es =>
      refine h.front_isSome e ?_
      simpa [ExpiringFifo.pushBack, hlist] using he

/-- A pop removes the first element that is alive, and the expired ones behind it. -/
theorem WellFormed.popFront (h : q.WellFormed) {xs : List α} (hlive : q.live = x :: xs) :
    q.popFront.WellFormed ∧ q.popFront.live = xs := by
  cases hlist : q.list with
  | nil => simp [live, hlist] at hlive
  | cons e es =>
    obtain ⟨y, hy⟩ := Option.isSome_iff_exists.mp (h.front_isSome e (by simp [hlist]))
    have hcons : q.live = y :: es.filterMap (·.payload) := by simp [live, hlist, hy]
    obtain ⟨-, hrest⟩ : y = x ∧ es.filterMap (·.payload) = xs := by
      simpa using hcons.symm.trans hlive
    have hsize : q.size - 1 = (es.filterMap (·.payload)).length := by
      rw [h.size_eq, hcons]
      rfl
    have hdrop := WellFormed.dropExpiredFront (q := ⟨es, q.size - 1⟩) hsize
    rw [ExpiringFifo.popFront, hlist, List.tail_cons]
    exact ⟨hdrop.1, hdrop.2.trans hrest⟩

/-- An element that expires leaves the queue, wherever it is. -/
theorem WellFormed.expire (h : q.WellFormed) {i : Nat} (hexpire : q.expire i = some (r, x)) :
    r.WellFormed ∧ ∃ earlier later, q.live = earlier ++ x :: later ∧ r.live = earlier ++ later ∧
      (earlier = [] ↔ i = 0) := by
  rw [ExpiringFifo.expire] at hexpire
  split at hexpire
  · rename_i payload hget
    cases hexpire
    obtain ⟨hi, hentry⟩ := List.getElem?_eq_some_iff.mp hget
    -- The list around the entry that expires.
    have hlist : q.list = q.list.take i ++ ⟨some x, true⟩ :: q.list.drop (i + 1) := by
      rw [← hentry, List.getElem_cons_drop, List.take_append_drop]
    have hset : q.list.set i ⟨none, false⟩ =
        q.list.take i ++ ⟨none, false⟩ :: q.list.drop (i + 1) :=
      List.set_eq_take_append_cons_drop.trans (if_pos hi)
    have hlive : q.live = (q.list.take i).filterMap (·.payload) ++
        x :: (q.list.drop (i + 1)).filterMap (·.payload) := by
      rw [live]
      conv_lhs => rw [hlist]
      simp
    have hsize : q.size - 1 = ((q.list.set i ⟨none, false⟩).filterMap (·.payload)).length := by
      rw [h.size_eq, hlive, hset]
      simp
    have hdrop := WellFormed.dropExpiredFront (q := ⟨q.list.set i ⟨none, false⟩, q.size - 1⟩) hsize
    refine ⟨hdrop.1, _, _, hlive, ?_, ?_, ?_⟩
    · rw [hdrop.2, live, hset]
      simp
    · -- The entry at the front has a payload, so it would be one of the earlier ones.
      intro hnil
      by_contra hpos
      obtain ⟨e, es, hcons⟩ := List.exists_cons_of_length_pos (Nat.zero_lt_of_lt hi)
      obtain ⟨y, hy⟩ := Option.isSome_iff_exists.mp (h.front_isSome e (by simp [hcons]))
      obtain ⟨j, rfl⟩ := Nat.exists_eq_succ_of_ne_zero hpos
      simp [hcons, hy] at hnil
    · rintro rfl
      rfl
  · cases hexpire

end Netstar.Spec.Core.ExpiringFifo
