import Mathlib.Algebra.Order.BigOperators.Group.List
import Mathlib.Algebra.Order.Ring.Nat
import Netstar.Proofs.Core.ChunkedFifo
import Netstar.Spec.Core.FifoReserve

/-!
# `Netstar.Proofs.Core.FifoReserve`: when `reserve` keeps its promise

The pushes that are sure to need no memory depend on two numbers, the room of the back chunk and the
saved chunks, and `safePushes` says how. It is a potential: a push takes at most one from it and a
pop takes nothing (`Shape.push`, `Shape.pop`), so that many pushes are free (`pushesFree_of_le`).
They are not more (`not_pushesFree`). With no saved chunk the user only pushes. With saved chunks
the user pops all items first, and then wastes each saved chunk but the last with one push and one
pop, because only one empty chunk is kept.

`reserve` computes as if every saved chunk were worth a whole chunk of pushes. It also subtracts
without a look at the order, and below the size it asks for about `2 ^ 64` items.
-/

set_option autoImplicit false

namespace Netstar.Proofs.Core.ChunkedFifo

open Netstar.Lib
open Netstar.Spec.Core
open Netstar.Spec.Core.ChunkedFifo

variable {α : Type} {k room saved : Nat} {f : ChunkedFifo α} {xs : List α}
  {cs : List (Nat × List α)} {free : List Nat}

/-- The room of the last chunk. -/
def roomOf (k : Nat) (cs : List (Nat × List α)) : Nat :=
  match cs.getLast? with
  | none => 0
  | some p => 2 ^ k - p.2.length

/-- The queue has the items `xs`, the room `room` and `saved` saved chunks. -/
def Shape (k : Nat) (f : ChunkedFifo α) (xs : List α) (room saved : Nat) : Prop :=
  ∃ cs free, Layout k f cs free [] ∧ (∀ p ∈ cs, p.2 ≠ []) ∧ cs.flatMap Prod.snd = xs ∧
    roomOf k cs = room ∧ free.length = saved

/-- No chunk, no room. -/
@[simp] theorem roomOf_nil : roomOf k ([] : List (Nat × List α)) = 0 := rfl

/-- The room is in the last chunk. -/
@[simp] theorem roomOf_concat (cs : List (Nat × List α)) (p : Nat × List α) :
    roomOf k (cs ++ [p]) = 2 ^ k - p.2.length := by
  rw [roomOf, List.getLast?_concat]

/-- A chunk at the front does not change the room, unless it is the only one. -/
theorem roomOf_cons (p : Nat × List α) (hcs : cs ≠ []) : roomOf k (p :: cs) = roomOf k cs := by
  rw [roomOf, roomOf, List.getLast?_cons, List.getLast?_eq_some_getLast hcs]
  rfl

/-- The indices of the last chunk give its room. -/
theorem backRoom_eq (hk : k ≤ 30) (h : Layout k f cs free []) :
    backRoom (2 ^ k) f = roomOf k cs := by
  rw [backRoom]
  rcases List.eq_nil_or_concat cs with rfl | ⟨init, p, rfl⟩
  · rw [show f.backChunk = none from h.back]
    rfl
  · rw [List.concat_eq_append] at h ⊢
    obtain ⟨c, hc, hholds⟩ := h.chunks p (by simp)
    have hback : f.backChunk = some p.1 := by
      rw [h.back]
      simp
    rw [hback, deref_some hc, roomOf_concat, ← hholds.size_eq hk]

/-- The room and the saved chunks of a queue. -/
theorem Rep.shape (hk : k ≤ 30) (h : Rep k f xs) :
    Shape k f xs (backRoom (2 ^ k) f) f.nfreeChunks := by
  obtain ⟨cs, free, hlayout, hne, hcontents⟩ := h
  exact ⟨cs, free, hlayout, hne, hcontents, (backRoom_eq hk hlayout).symm,
    hlayout.nfreeChunks.symm⟩

namespace Shape

/-- A shape forgets the room. -/
theorem rep (h : Shape k f xs room saved) : Rep k f xs := by
  obtain ⟨cs, free, hlayout, hne, hcontents, -, -⟩ := h
  exact ⟨cs, free, hlayout, hne, hcontents⟩

/-- The saved chunks of a shape. -/
theorem nfreeChunks (h : Shape k f xs room saved) : f.nfreeChunks = saved := by
  obtain ⟨cs, free, hlayout, -, -, -, hsaved⟩ := h
  exact hlayout.nfreeChunks.trans hsaved

/-- The room of a shape. -/
theorem backRoom (hk : k ≤ 30) (h : Shape k f xs room saved) :
    ChunkedFifo.backRoom (2 ^ k) f = room := by
  obtain ⟨cs, free, hlayout, -, -, hroom, -⟩ := h
  exact (backRoom_eq hk hlayout).trans hroom

/-- The back chunk is not empty, so its room is less than a chunk. -/
theorem room_lt (h : Shape k f xs room saved) : room < 2 ^ k := by
  obtain ⟨cs, free, -, hne, -, rfl, -⟩ := h
  rcases List.eq_nil_or_concat cs with rfl | ⟨init, p, rfl⟩
  · exact Nat.two_pow_pos k
  · rw [List.concat_eq_append] at hne ⊢
    have hlen := List.length_pos_iff.mpr (hne p (by simp))
    have hpos := Nat.two_pow_pos k
    rw [roomOf_concat]
    omega

end Shape

/-! ### One push -/

/-- A push after `ensure_room_back` gave a last chunk with room. -/
theorem pushBack_of_room {f₁ : ChunkedFifo α} {init : List (Nat × List α)} {a : Nat} {ys : List α}
    (hk : k ≤ 30) (hensure : f.ensureRoomBack (2 ^ k) noMemory = .ok (f₁, false))
    (h : Layout k f₁ (init ++ [(a, ys)]) free []) (hlt : ys.length < 2 ^ k) (x : α) :
    ∃ f', f.pushBack (2 ^ k) noMemory x = .ok (f', false) ∧
      Layout k f' (init ++ [(a, ys ++ [x])]) free [] := by
  have hback : f₁.backChunk = some a := by
    rw [h.back]
    simp
  obtain ⟨c, hc, -⟩ := h.chunks (a, ys) (by simp)
  refine ⟨_, ?_, h.writeBack hk hlt hc x⟩
  rw [ChunkedFifo.pushBack, hensure, ok_bind]
  show (f₁.deref f₁.backChunk >>= fun r => return (f₁.store r.1 { r.2 with
    items := r.2.items.set (mask (2 ^ k) r.2.last) (.live x)
    last := r.2.last + 1 }, false)) = _
  rw [hback, deref_some hc, ok_bind]
  rfl

/-- Without room in the last chunk `ensure_room_back` asks for a new one. -/
theorem ensureRoomBack_full (env : FifoEnv) (hk : k ≤ 30) (h : Layout k f cs free [])
    (hroom : roomOf k cs = 0) :
    f.ensureRoomBack (2 ^ k) env = f.backChunkNew (2 ^ k) env ∧
      ∀ p ∈ cs.getLast?, p.2.length = 2 ^ k := by
  rw [ensureRoomBack]
  rcases List.eq_nil_or_concat cs with rfl | ⟨init, ⟨o, ys⟩, rfl⟩
  · exact ⟨if_pos h.back, by simp⟩
  · rw [List.concat_eq_append] at h hroom ⊢
    rw [roomOf_concat] at hroom
    obtain ⟨c, hc, hholds⟩ := h.chunks (o, ys) (by simp)
    have hback : f.backChunk = some o := by
      rw [h.back]
      simp
    have hfull : ys.length = 2 ^ k :=
      Nat.le_antisymm hholds.length_le (Nat.le_of_sub_eq_zero hroom)
    refine ⟨?_, fun p hp => ?_⟩
    · rw [hback, if_neg (by simp), deref_some hc, ok_bind]
      dsimp only
      rw [hholds.size_eq hk, if_pos hfull]
    · rw [List.getLast?_concat] at hp
      obtain rfl : (o, ys) = p := Option.some.inj hp
      exact hfull

namespace Shape

/-- A push into the room of the back chunk. -/
theorem push_room (hk : k ≤ 30) (h : Shape k f xs (room + 1) saved) (x : α) :
    ∃ f', f.pushBack (2 ^ k) noMemory x = .ok (f', false) ∧
      Shape k f' (xs ++ [x]) room saved := by
  obtain ⟨cs, free, hlayout, hne, rfl, hroom, hsaved⟩ := h
  rcases List.eq_nil_or_concat cs with rfl | ⟨init, ⟨a, ys⟩, rfl⟩
  · cases hroom
  · rw [List.concat_eq_append] at hlayout hne hroom ⊢
    have hroom : 2 ^ k - ys.length = room + 1 := by rwa [roomOf_concat] at hroom
    have hlt : ys.length < 2 ^ k := by omega
    obtain ⟨c, hc, hholds⟩ := hlayout.chunks (a, ys) (by simp)
    have hback : f.backChunk = some a := by
      rw [hlayout.back]
      simp
    have hensure : f.ensureRoomBack (2 ^ k) noMemory = .ok (f, false) := by
      rw [ensureRoomBack, hback, if_neg (by simp), deref_some hc, ok_bind]
      dsimp only
      rw [hholds.size_eq hk, if_neg (Nat.ne_of_lt hlt)]
      rfl
    obtain ⟨f', hpush, hlayout'⟩ := pushBack_of_room hk hensure hlayout hlt x
    refine ⟨f', hpush, _, free, hlayout', fun p hp => ?_, by simp, ?_, hsaved⟩
    · rcases List.mem_append.mp hp with hp | hp
      · exact hne p (List.mem_append_left _ hp)
      · obtain rfl : p = (a, ys ++ [x]) := by simpa using hp
        simp
    · show roomOf k (init ++ [(a, ys ++ [x])]) = room
      rw [roomOf_concat]
      show 2 ^ k - (ys ++ [x]).length = room
      rw [List.length_append, List.length_singleton]
      omega

/-- A push that takes the first saved chunk. -/
theorem push_saved (hk : k ≤ 30) (h : Shape k f xs 0 (saved + 1)) (x : α) :
    ∃ f', f.pushBack (2 ^ k) noMemory x = .ok (f', false) ∧
      Shape k f' (xs ++ [x]) (2 ^ k - 1) saved := by
  obtain ⟨cs, free, hlayout, hne, rfl, hroom, hsaved⟩ := h
  obtain ⟨a, free, rfl⟩ := List.exists_cons_of_length_eq_add_one hsaved
  obtain ⟨hensure, hfull⟩ := ensureRoomBack_full noMemory hk hlayout hroom
  obtain ⟨f₁, hnew, hlayout₁⟩ := backChunkNew_saved noMemory hlayout hfull
  obtain ⟨f', hpush, hlayout'⟩ :=
    pushBack_of_room hk (hensure.trans hnew) hlayout₁ (Nat.two_pow_pos k) x
  refine ⟨f', hpush, _, free, hlayout', fun p hp => ?_, by simp, by simp, by simpa using hsaved⟩
  rcases List.mem_append.mp hp with hp | hp
  · exact hne p hp
  · obtain rfl : p = (a, [] ++ [x]) := by simpa using hp
    simp

/-- Without room and without a saved chunk a push needs memory. -/
theorem push_stuck (hk : k ≤ 30) (h : Shape k f xs 0 0) (x : α) :
    f.pushBack (2 ^ k) noMemory x = .ok (f, true) := by
  obtain ⟨cs, free, hlayout, hne, rfl, hroom, hsaved⟩ := h
  obtain rfl : free = [] := List.length_eq_zero_iff.mp hsaved
  have hnone : f.freeChunks = none := hlayout.freed
  rw [ChunkedFifo.pushBack, (ensureRoomBack_full noMemory hk hlayout hroom).1, backChunkNew, hnone]
  rfl

/-! ### One pop -/

/-- A pop takes no room away unless it takes the last item, and it saves a chunk only when there was
none. -/
theorem pop {x : α} (hk : k ≤ 30) (h : Shape k f (x :: xs) room saved) :
    ∃ f' room' saved', f.popFront (2 ^ k) = .ok f' ∧ Shape k f' xs room' saved' ∧
      (room ≤ room' ∧ (saved' = saved ∨ saved' = max saved 1) ∨
        xs = [] ∧ room' = 0 ∧ saved' = max saved 1) := by
  obtain ⟨cs, free, hlayout, hne, hcontents, rfl, rfl⟩ := h
  obtain ⟨a, ys, cs, rfl, hrest⟩ := exists_front hne hcontents
  obtain ⟨f', hpop, hlayout'⟩ := popFront_layout hk hlayout
  have hne' : ∀ p ∈ cs, p.2 ≠ [] := fun p hp => hne p (List.mem_cons_of_mem _ hp)
  have hlen : (if free = [] then [a] else free).length = max free.length 1 := by
    cases free with
    | nil => rfl
    | cons b free => simp
  by_cases hempty : ys = []
  · subst hempty
    rw [if_pos rfl] at hlayout'
    have hshape : Shape k f' xs (roomOf k cs) (max free.length 1) :=
      ⟨cs, _, hlayout', hne', hrest, rfl, hlen⟩
    refine ⟨f', _, _, hpop, hshape, ?_⟩
    cases cs with
    | nil => exact .inr ⟨hrest.symm, rfl, rfl⟩
    | cons p cs => exact .inl ⟨(roomOf_cons _ (by simp)).le, .inr rfl⟩
  · rw [if_neg hempty] at hlayout'
    have hne'' : ∀ p ∈ (a, ys) :: cs, p.2 ≠ [] := by
      intro p hp
      rcases List.mem_cons.mp hp with rfl | hp
      · exact hempty
      · exact hne' p hp
    have hle : roomOf k ((a, x :: ys) :: cs) ≤ roomOf k ((a, ys) :: cs) := by
      cases cs with
      | nil => exact Nat.sub_le_sub_left (Nat.le_succ _) _
        | cons p cs =>
        have hcs := List.cons_ne_nil p cs
        rw [roomOf_cons _ hcs, roomOf_cons _ hcs]
    exact ⟨f', _, _, hpop, ⟨_, free, hlayout', hne'', hrest, rfl, rfl⟩, .inl ⟨hle, .inl rfl⟩⟩

end Shape

/-! ### The pushes that are free -/

section Potential

/-- More room and more chunks pay for more pushes. -/
theorem safePushes_mono {ipc r r' n n' : Nat} (hr : r ≤ r') (hn : n ≤ n') (hlt : r ≤ ipc) :
    safePushes ipc r n ≤ safePushes ipc r' n' := by
  unfold safePushes
  split <;> split <;> omega

end Potential

/-- A push that the potential pays for needs no memory, and takes at most one from it. -/
theorem Shape.push (hk : k ≤ 30) (h : Shape k f xs room saved)
    (hpos : 0 < safePushes (2 ^ k) room saved) (x : α) :
    ∃ f' room' saved', f.pushBack (2 ^ k) noMemory x = .ok (f', false) ∧
      Shape k f' (xs ++ [x]) room' saved' ∧
      safePushes (2 ^ k) room saved ≤ safePushes (2 ^ k) room' saved' + 1 := by
  have hlt := h.room_lt
  cases room with
  | succ room =>
    obtain ⟨f', hpush, hshape⟩ := h.push_room hk x
    refine ⟨f', _, _, hpush, hshape, ?_⟩
    unfold safePushes
    split <;> omega
  | zero =>
    cases saved with
    | zero => cases hpos
    | succ saved =>
      obtain ⟨f', hpush, hshape⟩ := h.push_saved hk x
      refine ⟨f', _, _, hpush, hshape, ?_⟩
      unfold safePushes
      split <;> split <;> omega

/-- A push of a program that needs no memory. -/
theorem play_push {f' : ChunkedFifo α} {x : α}
    (h : f.pushBack (2 ^ k) noMemory x = .ok (f', false)) :
    play (2 ^ k) (f, xs) (.push x) = some (f', xs ++ [x]) := by
  rw [play, h]

/-- A pop of a program. -/
theorem play_pop {f' : ChunkedFifo α} {x : α} (h : f.popFront (2 ^ k) = .ok f') :
    play (2 ^ k) (f, x :: xs) .pop = some (f', xs) := by
  rw [play, if_neg (by simp), h]
  rfl

/-- What is left of the potential after some operations. -/
theorem shape_run (hk : k ≤ 30) {ops : List (FifoOp α)} {t : ChunkedFifo α × List α}
    (h : Shape k f xs room saved) (hpushes : pushes ops ≤ safePushes (2 ^ k) room saved)
    (hrun : run (play (2 ^ k)) (f, xs) ops = some t) :
    ∃ room' saved', Shape k t.1 t.2 room' saved' ∧
      safePushes (2 ^ k) room saved ≤ safePushes (2 ^ k) room' saved' + pushes ops := by
  induction ops generalizing f xs room saved with
  | nil =>
    cases hrun
    exact ⟨room, saved, h, Nat.le_refl _⟩
  | cons op ops ih =>
    obtain ⟨u, hstep, hrest⟩ := run_cons.mp hrun
    cases op with
    | push x =>
      have hpos : 0 < safePushes (2 ^ k) room saved := Nat.lt_of_lt_of_le (Nat.succ_pos _) hpushes
      obtain ⟨f', room', saved', hpush, hshape, hdrop⟩ := h.push hk hpos x
      rw [play_push hpush] at hstep
      cases hstep
      have hle : pushes ops + 1 ≤ safePushes (2 ^ k) room saved := hpushes
      obtain ⟨room'', saved'', hshape', hleft⟩ := ih hshape (by omega) hrest
      refine ⟨room'', saved'', hshape', ?_⟩
      show _ ≤ _ + (pushes ops + 1)
      omega
    | pop =>
      cases xs with
      | nil => cases hstep
      | cons x xs =>
        obtain ⟨f', room', saved', hpop, hshape, hcases⟩ := h.pop hk
        rw [play_pop hpop] at hstep
        cases hstep
        have hlt := h.room_lt
        -- The last item gives its room away, and the chunk that it saves is worth more.
        have hkeep : safePushes (2 ^ k) room saved ≤ safePushes (2 ^ k) room' saved' := by
          rcases hcases with ⟨hle, rfl | rfl⟩ | ⟨-, rfl, rfl⟩
          · exact safePushes_mono hle (Nat.le_refl _) (by omega)
          · exact safePushes_mono hle (Nat.le_max_left _ _) (by omega)
          · unfold safePushes
            split <;> split <;> omega
        obtain ⟨room'', saved'', hshape', hleft⟩ := ih hshape (hpushes.trans hkeep) hrest
        exact ⟨room'', saved'', hshape', hkeep.trans hleft⟩

/-- As many pushes as the potential pays for need no memory, with any pops between them. -/
theorem pushesFree_of_le {m : Nat} (hk : k ≤ 30) (h : Shape k f xs room saved)
    (hm : m ≤ safePushes (2 ^ k) room saved) : PushesFree (2 ^ k) f xs m := by
  intro ops t hrun hlt x
  obtain ⟨room', saved', hshape, hleft⟩ := shape_run hk h (by omega) hrun
  obtain ⟨f', _, _, hpush, -, -⟩ := hshape.push hk (by omega) x
  rw [play_push hpush]
  rfl

/-! ### The pushes that are not -/

/-- The user can go from one state to the other with `m` pushes. -/
def Reaches (k : Nat) (s t : ChunkedFifo α × List α) (m : Nat) : Prop :=
  ∃ ops, run (play (2 ^ k)) s ops = some t ∧ pushes ops = m

/-- The pushes of two programs. -/
theorem pushes_append (ops ops' : List (FifoOp α)) :
    pushes (ops ++ ops') = pushes ops + pushes ops' := by
  induction ops with
  | nil => exact (Nat.zero_add _).symm
  | cons op ops ih =>
    cases op with
    | push x =>
      show pushes (ops ++ ops') + 1 = pushes ops + 1 + pushes ops'
      omega
    | pop => exact ih

namespace Reaches

variable {s t u : ChunkedFifo α × List α} {m n : Nat}

/-- No push reaches the same state. -/
theorem refl : Reaches k s s 0 := ⟨[], rfl, rfl⟩

/-- One program after another. -/
theorem trans (h : Reaches k s t m) (h' : Reaches k t u n) : Reaches k s u (m + n) := by
  obtain ⟨ops, hrun, rfl⟩ := h
  obtain ⟨ops', hrun', rfl⟩ := h'
  exact ⟨ops ++ ops', run_append.mpr ⟨t, hrun, hrun'⟩, pushes_append ops ops'⟩

/-- A program of one push. -/
theorem push {x : α} (h : play (2 ^ k) s (.push x) = some t) : Reaches k s t 1 :=
  ⟨[.push x], run_cons.mpr ⟨t, h, rfl⟩, rfl⟩

/-- A program of one pop. -/
theorem pop (h : play (2 ^ k) s .pop = some t) : Reaches k s t 0 :=
  ⟨[.pop], run_cons.mpr ⟨t, h, rfl⟩, rfl⟩

end Reaches

/-- An empty queue has no chunk with room. -/
theorem Shape.nil_room (h : Shape k f [] room saved) : room = 0 := by
  obtain ⟨cs, free, -, hne, hcontents, rfl, -⟩ := h
  cases cs with
  | nil => rfl
  | cons p cs =>
    have hp : p.2 ≠ [] := hne p (by simp)
    exact absurd (List.append_eq_nil_iff.mp hcontents).1 hp

/-- Without saved chunks the user fills the back chunk. -/
theorem Shape.fill (hk : k ≤ 30) (h : Shape k f xs room 0) (x : α) :
    ∃ t, Reaches k (f, xs) t room ∧ Shape k t.1 t.2 0 0 := by
  induction room generalizing f xs with
  | zero => exact ⟨(f, xs), Reaches.refl, h⟩
  | succ room ih =>
    obtain ⟨f', hpush, hshape⟩ := h.push_room hk x
    obtain ⟨t, hreach, ht⟩ := ih hshape
    refine ⟨t, ?_, ht⟩
    rw [Nat.add_comm]
    exact (Reaches.push (play_push hpush)).trans hreach

/-- With a saved chunk the user pops all items, and the saved chunks stay as many. -/
theorem Shape.popAll (hk : k ≤ 30) (h : Shape k f xs room (saved + 1)) :
    ∃ f', Reaches k (f, xs) (f', []) 0 ∧ Shape k f' [] 0 (saved + 1) := by
  induction xs generalizing f room with
  | nil =>
    obtain rfl := h.nil_room
    exact ⟨f, Reaches.refl, h⟩
  | cons x xs ih =>
    obtain ⟨f', room', saved', hpop, hshape, hcases⟩ := h.pop hk
    have hsaved : saved' = saved + 1 := by omega
    rw [hsaved] at hshape
    obtain ⟨f'', hreach, hnil⟩ := ih hshape
    exact ⟨f'', (Reaches.pop (play_pop hpop)).trans hreach, hnil⟩

/-- One push and one pop waste a saved chunk, down to the last one. -/
theorem Shape.waste (hk : k ≤ 30) (h : Shape k f [] 0 (saved + 1)) (x : α) :
    ∃ f', Reaches k (f, []) (f', []) saved ∧ Shape k f' [] 0 1 := by
  induction saved generalizing f with
  | zero => exact ⟨f, Reaches.refl, h⟩
  | succ saved ih =>
    obtain ⟨f₁, hpush, hshape₁⟩ := h.push_saved hk x
    obtain ⟨f₂, room', saved', hpop, hshape₂, hcases⟩ := hshape₁.pop hk
    have hsaved : saved' = saved + 1 := by omega
    obtain rfl := hshape₂.nil_room
    rw [hsaved] at hshape₂
    obtain ⟨f', hreach, hshape⟩ := ih hshape₂
    refine ⟨f', ?_, hshape⟩
    have hplay : play (2 ^ k) (f₁, [] ++ [x]) .pop = some (f₂, []) := play_pop hpop
    have hfirst := (Reaches.push (play_push hpush)).trans (Reaches.pop hplay)
    rw [show saved + 1 = 1 + 0 + saved by omega]
    exact hfirst.trans hreach

/-- The user can use the potential up. -/
theorem Shape.drain (hk : k ≤ 30) (h : Shape k f xs room saved) (x : α) :
    ∃ t, Reaches k (f, xs) t (safePushes (2 ^ k) room saved) ∧ Shape k t.1 t.2 0 0 := by
  cases saved with
  | zero => exact h.fill hk x
  | succ saved =>
    obtain ⟨f₁, hpops, hshape₁⟩ := h.popAll hk
    obtain ⟨f₂, hwaste, hshape₂⟩ := hshape₁.waste hk x
    obtain ⟨f₃, hpush, hshape₃⟩ := hshape₂.push_saved hk x
    obtain ⟨t, hfill, ht⟩ := hshape₃.fill hk x
    refine ⟨t, ?_, ht⟩
    have hall := ((hpops.trans hwaste).trans (Reaches.push (play_push hpush))).trans hfill
    have hpow := Nat.two_pow_pos k
    have hsum : 0 + saved + 1 + (2 ^ k - 1) = safePushes (2 ^ k) room (saved + 1) := by
      show _ = saved + 1 - 1 + 2 ^ k
      omega
    rwa [hsum] at hall

/-- One push more than the potential pays for needs memory, after the right pops. -/
theorem not_pushesFree {m : Nat} (hk : k ≤ 30) (h : Shape k f xs room saved)
    (hm : safePushes (2 ^ k) room saved < m) (x : α) : ¬ PushesFree (2 ^ k) f xs m := by
  intro hfree
  obtain ⟨t, ⟨ops, hrun, hpushes⟩, ht⟩ := h.drain hk x
  have hsome := hfree ops t hrun (hpushes ▸ hm) x
  rw [play, ht.push_stuck hk x] at hsome
  cases hsome

/-! ### The reservation -/

/-- The chunks that `reserve` wants to have saved. The sum is taken modulo `2 ^ 64`. -/
def neededChunks (p size room n : Nat) : Nat :=
  (((n : Int) - size - room + p - 1) % 2 ^ 64).toNat / p

/-- The number of chunks that `reserve` computes, over the integers. -/
theorem toNat_needed (n : UInt64) (size room : Nat) (hk : k ≤ 30) :
    ((n - UInt64.ofNat size - UInt64.ofNat room + UInt64.ofNat (2 ^ k) - 1) /
      UInt64.ofNat (2 ^ k)).toNat = neededChunks (2 ^ k) size room n.toNat := by
  have hpow := two_pow_le hk
  have hpos := Nat.two_pow_pos k
  obtain ⟨p, hp⟩ : ∃ p, p = 2 ^ k := ⟨_, rfl⟩
  rw [← hp] at hpow hpos ⊢
  have hn := n.toNat_lt
  have hmod : (UInt64.ofNat p).toNat = p := by
    rw [UInt64.toNat_ofNat']
    omega
  rw [UInt64.toNat_div, hmod, neededChunks]
  congr 1
  rw [UInt64.toNat_sub, UInt64.toNat_add, UInt64.toNat_sub, UInt64.toNat_sub, hmod,
    UInt64.toNat_ofNat', UInt64.toNat_ofNat']
  show _ = (((n.toNat : Int) - size - room + p - 1) % 18446744073709551616).toNat
  show (2 ^ 64 - 1 + _) % 2 ^ 64 = _
  omega

/-- `reserve` counts what the last chunk has no room for. -/
theorem needBeyondBack_eq (hk : k ≤ 30) (h : Shape k f xs room saved) (n : UInt64) :
    f.needBeyondBack (2 ^ k) n = .ok (n - UInt64.ofNat room) := by
  obtain ⟨cs, free, hlayout, hne, -, rfl, -⟩ := h
  rw [needBeyondBack]
  rcases List.eq_nil_or_concat cs with rfl | ⟨init, ⟨o, ys⟩, rfl⟩
  · have hback : f.backChunk = none := hlayout.back
    rw [if_pos hback, roomOf_nil]
    simp
  · rw [List.concat_eq_append] at hlayout ⊢
    obtain ⟨c, hc, hholds⟩ := hlayout.chunks (o, ys) (by simp)
    have hback : f.backChunk = some o := by
      rw [hlayout.back]
      simp
    have hlen : ys.length ≤ 2 ^ k := hholds.length_le
    have hpow := two_pow_le hk
    have hroom : UInt64.ofNat (2 ^ k) - (c.last - c.first).toUInt64 =
        UInt64.ofNat (2 ^ k - ys.length) := by
      apply UInt64.toNat.inj
      rw [UInt64.toNat_sub, UInt64.toNat_ofNat', UInt64.toNat_ofNat', UInt32.toNat_toUInt64,
        hholds.size_eq hk]
      generalize 2 ^ k = p at hlen hpow ⊢
      rw [Nat.mod_eq_of_lt (show p < 2 ^ 64 by omega),
        Nat.mod_eq_of_lt (show p - ys.length < 2 ^ 64 by omega)]
      show (2 ^ 64 - ys.length + p) % 2 ^ 64 = p - ys.length
      omega
    rw [hback, if_neg (by simp), deref_some hc, ok_bind, roomOf_concat, ← hroom]
    rfl

/-- `reserve` allocates the chunks that are missing. -/
theorem reserve_eq (env : FifoEnv) (hk : k ≤ 30) (h : Shape k f xs room saved) (n : UInt64) :
    f.reserve (2 ^ k) env n =
      if neededChunks (2 ^ k) xs.length room n.toNat ≤ saved then .ok (f, false)
      else f.reserveLoop (2 ^ k) env 0 (neededChunks (2 ^ k) xs.length room n.toNat - saved) := by
  rw [reserve, h.rep.size_eq hk, ok_bind, needBeyondBack_eq hk h, ok_bind]
  dsimp only
  rw [toNat_needed n _ _ hk, h.nfreeChunks]
  rfl

/-- The loop saves the chunks that it allocates, and without an exception these are all. -/
theorem reserveLoop_shape (env : FifoEnv) {needed i : Nat} (h : Shape k f xs room saved) :
    Sat (· = .addressInUse)
      (fun r => ∃ j ≤ needed, (r.2 = false → j = needed) ∧ Shape k r.1 xs room (saved + j))
      (f.reserveLoop (2 ^ k) env i needed) := by
  induction needed generalizing f i saved with
  | zero => exact ⟨0, Nat.le_refl _, fun _ => rfl, h⟩
  | succ needed ih =>
    rw [reserveLoop]
    cases halloc : env.alloc i with
    | none => exact ⟨0, Nat.zero_le _, (fun hthrew => by cases hthrew), h⟩
    | some a =>
      dsimp only
      rw [ChunkedFifo.newChunk]
      cases ha : f.heap a with
      | some c => exact rfl
      | none =>
        dsimp only
        rw [ok_bind]
        obtain ⟨cs, free, hlayout, hne, hcontents, hroom, rfl⟩ := h
        have hnew := (hlayout.newChunk ha f.freeChunks).putFree (Function.update_self ..) rfl
        refine (ih ⟨cs, a :: free, hnew, hne, hcontents, hroom, rfl⟩).mono fun r hr => ?_
        obtain ⟨j, hj, hall, hshape⟩ := hr
        refine ⟨j + 1, Nat.succ_le_succ hj, fun hthrew => by rw [hall hthrew], ?_⟩
        rwa [List.length_cons, Nat.add_assoc, Nat.add_comm 1] at hshape

/-- What `reserve` leaves, when it runs out of memory too. -/
theorem reserve_shape (env : FifoEnv) (hk : k ≤ 30) (h : Shape k f xs room saved) (n : UInt64) :
    Sat (· = .addressInUse)
      (fun r => ∃ j ≤ neededChunks (2 ^ k) xs.length room n.toNat - saved,
        (r.2 = false → j = neededChunks (2 ^ k) xs.length room n.toNat - saved) ∧
          Shape k r.1 xs room (saved + j))
      (f.reserve (2 ^ k) env n) := by
  rw [reserve_eq env hk h]
  split
  · rename_i hle
    rw [Nat.sub_eq_zero_of_le hle]
    exact ⟨0, Nat.le_refl _, fun _ => rfl, h⟩
  · exact reserveLoop_shape env h

/-- An allocator that always has memory, above the addresses in use. -/
def roomy (bound : Nat) : FifoEnv := ⟨fun i => some (bound + i), false⟩

/-- The chunks have addresses below some bound. -/
theorem exists_bound (h : Shape k f xs room saved) : ∃ bound, ∀ a, f.heap a ≠ none → a < bound := by
  obtain ⟨cs, free, hlayout, -⟩ := h
  refine ⟨(cs.map Prod.fst ++ free ++ []).sum + 1, fun a ha => ?_⟩
  exact Nat.lt_succ_of_le (List.single_le_sum (fun _ _ => Nat.zero_le _) a (hlayout.owned a ha))

/-- With enough memory `reserve` gets all its chunks. -/
theorem reserveLoop_roomy {needed i bound : Nat} (h : ∀ a, f.heap a ≠ none → a < bound + i) :
    ∃ f', f.reserveLoop (2 ^ k) (roomy bound) i needed = .ok (f', false) := by
  induction needed generalizing f i with
  | zero => exact ⟨f, rfl⟩
  | succ needed ih =>
    have ha : f.heap (bound + i) = none := by
      by_contra hsome
      exact Nat.lt_irrefl _ (h _ hsome)
    rw [reserveLoop]
    show ∃ f', (f.newChunk (2 ^ k) (bound + i) f.freeChunks).bind _ = _
    rw [ChunkedFifo.newChunk, ha]
    refine ih fun a hne => ?_
    by_cases heq : a = bound + i
    · omega
    · have hold : f.heap a ≠ none := by
        intro hnone
        exact hne ((Function.update_of_ne heq ..).trans hnone)
      have hlt := h a hold
      omega

/-- With memory `reserve` has exactly the chunks that it wants. -/
theorem reserve_roomy (hk : k ≤ 30) (h : Shape k f xs room saved) (n : UInt64) :
    ∃ env f', f.reserve (2 ^ k) env n = .ok (f', false) ∧
      Shape k f' xs room (max saved (neededChunks (2 ^ k) xs.length room n.toNat)) := by
  obtain ⟨bound, hbound⟩ := exists_bound h
  have hret : ∃ f', f.reserve (2 ^ k) (roomy bound) n = .ok (f', false) := by
    rw [reserve_eq _ hk h]
    split
    · exact ⟨f, rfl⟩
    · exact reserveLoop_roomy hbound
  obtain ⟨f', hret⟩ := hret
  have hsat := reserve_shape (roomy bound) hk h n
  rw [hret] at hsat
  obtain ⟨j, -, hall, hshape⟩ := hsat
  refine ⟨roomy bound, f', hret, ?_⟩
  rwa [hall rfl, show ∀ a b : Nat, a + (b - a) = max a b by omega] at hshape

/-! ### When the promise is kept -/

/-- Below the size the code wants nothing to be free, and may still allocate. -/
theorem reserveHolds_below {n : UInt64} (hk : k ≤ 30) (h : Shape k f xs room saved)
    (hlt : n.toNat < xs.length) :
    ReserveHolds (2 ^ k) f xs n ↔ neededChunks (2 ^ k) xs.length room n.toNat ≤ saved := by
  have hpow := Nat.two_pow_pos k
  have hzero : n.toNat - xs.length = 0 := Nat.sub_eq_zero_of_le (Nat.le_of_lt hlt)
  have hceil : (n.toNat - xs.length + 2 ^ k - 1) / 2 ^ k = 0 := by
    rw [hzero]
    exact Nat.div_eq_of_lt (by omega)
  constructor
  · intro hholds
    obtain ⟨env, f', hret, hshape⟩ := reserve_roomy hk h n
    have hres := hholds env
    rw [hret] at hres
    have hcount : f'.nfreeChunks - f.nfreeChunks ≤ 0 := hceil ▸ hres.1
    rw [hshape.nfreeChunks, h.nfreeChunks] at hcount
    omega
  · intro hle env
    rw [reserve_eq env hk h, if_pos hle, hceil, hzero]
    exact ⟨by omega, fun _ ops t _ hpushes => absurd hpushes (Nat.not_lt_zero _)⟩

/-- From the size on the promise depends on the pushes that the wanted chunks are worth. -/
theorem reserveHolds_above {n : UInt64} (hk : k ≤ 30) (h : Shape k f xs room saved)
    (hceil : neededChunks (2 ^ k) xs.length room n.toNat ≤
      (n.toNat - xs.length + 2 ^ k - 1) / 2 ^ k) (x : α) :
    ReserveHolds (2 ^ k) f xs n ↔
      n.toNat - xs.length ≤
        safePushes (2 ^ k) room (max saved (neededChunks (2 ^ k) xs.length room n.toNat)) := by
  constructor
  · intro hholds
    obtain ⟨env, f', hret, hshape⟩ := reserve_roomy hk h n
    have hres := hholds env
    rw [hret] at hres
    by_contra hlt
    exact not_pushesFree hk hshape (Nat.lt_of_not_le hlt) x (hres.2 rfl)
  · intro hsafe env
    rcases (reserve_shape env hk h n).cases with ⟨e, hret, rfl⟩ | ⟨⟨f', threw⟩, hret, hsat⟩
    · rw [hret]
    · obtain ⟨j, hj, hall, hshape⟩ := hsat
      rw [hret]
      refine ⟨?_, fun hthrew => pushesFree_of_le hk hshape ?_⟩
      · rw [hshape.nfreeChunks, h.nfreeChunks]
        omega
      · rw [hall hthrew, show ∀ a b : Nat, a + (b - a) = max a b by omega]
        exact hsafe

/-- The chunks that `reserve` wants are those that the items beyond the room fill, unless the sum
overflows. Then it wants none. -/
theorem neededChunks_above {n size : Nat} (hk : k ≤ 30) (hroom : room < 2 ^ k) (hle : size ≤ n)
    (hn : n < 2 ^ 64) :
    neededChunks (2 ^ k) size room n = (n - size - room + 2 ^ k - 1) / 2 ^ k ∨
      neededChunks (2 ^ k) size room n = 0 ∧ 2 ^ 64 ≤ n - size - room + 2 ^ k - 1 := by
  have hpow := two_pow_le hk
  have hpos := Nat.two_pow_pos k
  rw [neededChunks]
  generalize 2 ^ k = p at *
  have hdiv : ∀ a : Nat, a < p → a / p = 0 := fun a ha => Nat.div_eq_of_lt ha
  show (((n : Int) - size - room + p - 1) % 18446744073709551616).toNat / p = _ ∨
    (((n : Int) - size - room + p - 1) % 18446744073709551616).toNat / p = 0 ∧ _
  rcases Nat.lt_or_ge (n - size) room with hlt | hge
  · -- The back chunk has room for all, and the negative difference plus a chunk is below a chunk.
    left
    rw [hdiv _ (by omega), hdiv _ (by omega)]
  · rcases Nat.lt_or_ge (n - size - room + p - 1) 18446744073709551616 with hfits | hover
    · left
      congr 1
      omega
    · right
      exact ⟨hdiv _ (by omega), hover⟩

/-- A difference near `2 ^ 64` is more than its chunks are worth. -/
theorem safePushes_lt_of_overflow {p m s : Nat} (hp : p ≤ 2 ^ 30) (hroom : room < p)
    (hm : m < 2 ^ 64) (hover : 2 ^ 64 ≤ m - room + p - 1) (hs : s ≤ (m - room + p - 1) / p) :
    safePushes p room s < m := by
  have htwo : 2 ≤ p := by omega
  have hfill : (m - room + p - 1) / p * p ≤ m - room + p - 1 := Nat.div_mul_le_self _ _
  have hhalf : (m - room + p - 1) / p * 2 ≤ (m - room + p - 1) / p * p :=
    Nat.mul_le_mul_left _ htwo
  unfold safePushes
  split <;> omega

/-- `reserve` keeps the promise exactly when there are enough saved chunks in the end. -/
theorem reserveHolds_of_shape {n : UInt64} (hk : k ≤ 30) (h : Shape k f xs room saved) (x : α) :
    ReserveHolds (2 ^ k) f xs n ↔ Enough (2 ^ k) xs.length room saved n.toNat := by
  rw [Enough]
  by_cases hlt : n.toNat < xs.length
  · rw [if_pos hlt, reserveHolds_below hk h hlt, neededChunks]
  · rw [if_neg hlt]
    have hroom := h.room_lt
    have hle := Nat.le_of_not_lt hlt
    rcases neededChunks_above hk hroom hle n.toNat_lt with heq | ⟨heq, hover⟩
    · have hceil : neededChunks (2 ^ k) xs.length room n.toNat ≤
          (n.toNat - xs.length + 2 ^ k - 1) / 2 ^ k := by
        rw [heq]
        exact Nat.div_le_div_right (by omega)
      rw [reserveHolds_above hk h hceil x, heq]
    · have hceil : neededChunks (2 ^ k) xs.length room n.toNat ≤
          (n.toNat - xs.length + 2 ^ k - 1) / 2 ^ k := by
        rw [heq]
        exact Nat.zero_le _
      rw [reserveHolds_above hk h hceil x, heq, Nat.max_zero]
      have hn := n.toNat_lt
      rcases Nat.lt_or_ge saved ((n.toNat - xs.length - room + 2 ^ k - 1) / 2 ^ k) with hfew | hmany
      · have hsmall := fun s hs =>
          safePushes_lt_of_overflow (s := s) (two_pow_le hk) hroom (by omega) hover hs
        have hneither := hsmall saved (Nat.le_of_lt hfew)
        have hmax := hsmall _ (Nat.le_refl _)
        rw [Nat.max_eq_right (Nat.le_of_lt hfew)]
        omega
      · rw [Nat.max_eq_left hmany]

/-- Every queue holds its list after any calls. -/
theorem inv_of_run {es : List (Event α)} {s : Session α} (hk : k ≤ 30)
    (hrun : run (Session.step (2 ^ k)) Session.create es = some s) : Inv k s := by
  refine run_invariant (Inv k) (fun e _ s t hs hstep => ?_) ⟨rfl, fun _ => Rep.create⟩ hrun
  cases e with
  | call env i c => exact hs.call hk hstep
  | move i j => exact hs.move hstep

/-- After any calls on any queues, `reserve` keeps its promise exactly when there are enough saved
chunks in the end. -/
theorem reserve_holds_iff [Inhabited α] {es : List (Event α)} {s : Session α} (hk : k ≤ 30)
    (hrun : run (Session.step (2 ^ k)) Session.create es = some s) (i : Nat) (n : UInt64) :
    ReserveHolds (2 ^ k) (s.fifos i) (s.lists i) n ↔
      Enough (2 ^ k) (s.lists i).length (backRoom (2 ^ k) (s.fifos i))
        (s.fifos i).nfreeChunks n.toNat :=
  reserveHolds_of_shape hk (((inv_of_run hk hrun).2 i).shape hk) default

/-- A queue with one item, in chunks of 128. -/
def onePush : List (Event Nat) := [.call ⟨fun _ => some 0, false⟩ 0 (.pushBack 5)]

/-- A program that pushes one element. -/
theorem onePush_runs : (run (Session.step 128) Session.create onePush).isSome := by
  decide +kernel

/-- The state after the push. -/
def onePushed : Session Nat := (run (Session.step 128) Session.create onePush).get onePush_runs

/-- The state that it leaves. -/
theorem onePushed_run : run (Session.step 128) Session.create onePush = some onePushed :=
  (Option.some_get onePush_runs).symm

/-- With one item 128 more can be reserved. -/
theorem reserve_holds_iff_one :
    ReserveHolds 128 (onePushed.fifos 0) (onePushed.lists 0) 129 ↔
      Enough 128 (onePushed.lists 0).length (backRoom 128 (onePushed.fifos 0))
        (onePushed.fifos 0).nfreeChunks 129 :=
  reserve_holds_iff (k := 7) (by decide) onePushed_run 0 129

/-- After one push and `reserve(200)` a pop gives the back chunk away, and only 128 of the 199 pushes
need no memory. -/
theorem not_reserve_holds : ¬ ∀ (es : List (Event Nat)) (s : Session Nat),
    run (Session.step 128) Session.create es = some s →
      ∀ i n, ReserveHolds 128 (s.fifos i) (s.lists i) n := by
  intro hall
  have hholds := hall onePush onePushed onePushed_run 0 200
  have hrep : Rep 7 (onePushed.fifos 0) (onePushed.lists 0) :=
    (inv_of_run (k := 7) (by decide) onePushed_run).2 0
  have henough := (reserveHolds_of_shape (k := 7) (by decide) (hrep.shape (by decide)) 0).mp hholds
  have hlist : (onePushed.lists 0).length = 1 := by decide +kernel
  have hroom : backRoom (2 ^ 7) (onePushed.fifos 0) = 127 := by decide +kernel
  have hsaved : (onePushed.fifos 0).nfreeChunks = 0 := by decide +kernel
  rw [hlist, hroom, hsaved] at henough
  revert henough
  show ¬ Enough 128 1 127 0 200
  rw [Enough]
  decide

end Netstar.Proofs.Core.ChunkedFifo
