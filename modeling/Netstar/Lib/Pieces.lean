import Netstar.Lib.Segments

/-!
# `Netstar.Lib.Pieces`: when the pieces of a stream are complete

`pieces a cs b` cuts the offsets from `a` to `b` at the points `cs`. The pieces do not overlap, and
together they cover everything. Some of them have arrived and were merged into a separated list of
segments. `complete_iff` says how the list shows that all of them are there: it is one segment that
starts at the first offset, and the piece that ends at the last offset has arrived.
-/

set_option autoImplicit false

namespace Netstar.Lib

/-- The pieces between `a` and `b`, cut at the points `cs`. -/
def pieces : Nat → List Nat → Nat → List (Nat × Nat)
  | a, [], b => [(a, b)]
  | a, c :: cs, b => (a, c) :: pieces c cs b

/-- The cutting points are in order. -/
def Cuts (a : Nat) (cs : List Nat) (b : Nat) : Prop := (a :: cs ++ [b]).Pairwise (· < ·)

/-- The cuts behind the first one. -/
theorem Cuts.tail {a c b : Nat} {cs : List Nat} (h : Cuts a (c :: cs) b) : Cuts c cs b :=
  (List.pairwise_cons.mp h).2

/-- Cuts go up. -/
theorem Cuts.lt {a b : Nat} {cs : List Nat} (h : Cuts a cs b) : a < b :=
  (List.pairwise_cons.mp h).1 b (by simp)

/-- The first cut is behind the start. -/
theorem Cuts.head_lt {a c b : Nat} {cs : List Nat} (h : Cuts a (c :: cs) b) : a < c :=
  (List.pairwise_cons.mp h).1 c (by simp)

/-- Every piece lies inside, and it is not empty. -/
theorem bounds_of_mem_pieces {a b : Nat} {cs : List Nat} (h : Cuts a cs b) {q : Nat × Nat}
    (hq : q ∈ pieces a cs b) : a ≤ q.1 ∧ q.1 < q.2 ∧ q.2 ≤ b := by
  induction cs generalizing a with
  | nil =>
    obtain rfl := List.mem_singleton.mp hq
    exact ⟨Nat.le_refl _, h.lt, Nat.le_refl _⟩
  | cons c cs ih =>
    have hac := h.head_lt
    rcases List.mem_cons.mp hq with rfl | hq
    · exact ⟨Nat.le_refl _, hac, Nat.le_of_lt h.tail.lt⟩
    · obtain ⟨hstart, hlt, hstop⟩ := ih h.tail hq
      exact ⟨by omega, hlt, hstop⟩

/-- Every offset lies in a piece. -/
theorem exists_mem_pieces {a b : Nat} {cs : List Nat} (h : Cuts a cs b) {x : Nat} (hax : a ≤ x)
    (hxb : x < b) : ∃ q ∈ pieces a cs b, q.1 ≤ x ∧ x < q.2 := by
  induction cs generalizing a with
  | nil => exact ⟨(a, b), List.mem_singleton_self _, hax, hxb⟩
  | cons c cs ih =>
    rcases Nat.lt_or_ge x c with hlt | hge
    · exact ⟨(a, c), List.mem_cons_self, hax, hlt⟩
    · obtain ⟨q, hq, hx⟩ := ih h.tail hge
      exact ⟨q, List.mem_cons_of_mem _ hq, hx⟩

/-- An offset lies in one piece only. -/
theorem eq_of_mem_pieces {a b : Nat} {cs : List Nat} (h : Cuts a cs b) {q q' : Nat × Nat}
    (hq : q ∈ pieces a cs b) (hq' : q' ∈ pieces a cs b) {x : Nat} (hx : q.1 ≤ x ∧ x < q.2)
    (hx' : q'.1 ≤ x ∧ x < q'.2) : q = q' := by
  induction cs generalizing a with
  | nil => rw [List.mem_singleton.mp hq, List.mem_singleton.mp hq']
  | cons c cs ih =>
    rcases List.mem_cons.mp hq with rfl | hq <;> rcases List.mem_cons.mp hq' with rfl | hq'
    · rfl
    · have := (bounds_of_mem_pieces h.tail hq').1
      simp only at hx
      omega
    · have := (bounds_of_mem_pieces h.tail hq).1
      simp only at hx'
      omega
    · exact ih h.tail hq hq'

variable {β : Type}

/-- A piece of the stream `f` as a segment. -/
def pieceSeg (f : Int → β) (q : Nat × Nat) : Seg β := (q.1, slice f q.1 (q.2 - q.1))

/-- A piece agrees with the stream. -/
theorem agrees_pieceSeg (f : Int → β) (q : Nat × Nat) : Agrees f (pieceSeg f q) := by
  unfold Agrees pieceSeg
  rw [length_slice]

/-- A piece stops at its end. -/
theorem stop_pieceSeg (f : Int → β) {q : Nat × Nat} (h : q.1 ≤ q.2) :
    (pieceSeg f q).stop = q.2 := by
  simp only [pieceSeg, Seg.stop, length_slice]
  omega

section Complete
variable {f : Int → β} {n : Nat} {cs : List Nat} {R : List (Nat × Nat)}

/-- What some pieces cover. -/
theorem covers_pieceSegs (h : Cuts 0 cs n) (hR : ∀ q ∈ R, q ∈ pieces 0 cs n) (x : Int) :
    Covers (R.map (pieceSeg f)) x ↔ ∃ q ∈ R, (q.1 : Int) ≤ x ∧ x < q.2 := by
  unfold Covers
  simp only [List.mem_map, exists_exists_and_eq_and]
  refine exists_congr fun q => and_congr_right fun hq => ?_
  have hbounds := bounds_of_mem_pieces h (hR q hq)
  rw [stop_pieceSeg f (by omega)]
  rfl

/-- What some pieces touch. -/
theorem touches_pieceSegs (h : Cuts 0 cs n) (hR : ∀ q ∈ R, q ∈ pieces 0 cs n) (x : Int) :
    Touches (R.map (pieceSeg f)) x ↔ ∃ q ∈ R, (q.1 : Int) ≤ x ∧ x ≤ q.2 := by
  unfold Touches
  simp only [List.mem_map, exists_exists_and_eq_and]
  refine exists_congr fun q => and_congr_right fun hq => ?_
  have hbounds := bounds_of_mem_pieces h (hR q hq)
  rw [stop_pieceSeg f (by omega)]
  rfl

/-- All pieces together have the extent of the whole stream. -/
theorem sameExtent_whole (h : Cuts 0 cs n) (hR : ∀ q ∈ R, q ∈ pieces 0 cs n)
    (hall : ∀ q ∈ pieces 0 cs n, q ∈ R) :
    SameExtent (R.map (pieceSeg f)) [((0 : Int), slice f 0 n)] := by
  have hn := h.lt
  refine ⟨fun x => ?_, fun x => ?_⟩
  · rw [covers_pieceSegs h hR, covers_cons]
    simp only [covers_nil, or_false, Seg.stop_mk, length_slice]
    constructor
    · rintro ⟨q, hq, hx⟩
      have hbounds := bounds_of_mem_pieces h (hR q hq)
      omega
    · intro hx
      obtain ⟨q, hq, hin⟩ := exists_mem_pieces h (Nat.zero_le x.toNat) (by omega)
      exact ⟨q, hall q hq, by omega⟩
  · rw [touches_pieceSegs h hR, touches_cons]
    simp only [touches_nil, or_false, Seg.stop_mk, length_slice]
    constructor
    · rintro ⟨q, hq, hx⟩
      have hbounds := bounds_of_mem_pieces h (hR q hq)
      omega
    · intro hx
      -- the offset behind the stream is touched by the last piece
      obtain ⟨q, hq, hin⟩ := exists_mem_pieces h (Nat.zero_le (min x.toNat (n - 1))) (by omega)
      exact ⟨q, hall q hq, by omega⟩

/-- All pieces together give the whole stream. -/
theorem eq_whole (h : Cuts 0 cs n) (hR : ∀ q ∈ R, q ∈ pieces 0 cs n) {m : List (Seg β)}
    (hsep : Separated m) (hext : SameExtent m (R.map (pieceSeg f))) (hagree : ∀ s ∈ m, Agrees f s)
    (hall : ∀ q ∈ pieces 0 cs n, q ∈ R) : m = [((0 : Int), slice f 0 n)] := by
  refine eq_of_separated hsep (List.pairwise_singleton _ _) hagree ?_
    (hext.trans (sameExtent_whole h hR hall))
  intro s hs
  obtain rfl := List.mem_singleton.mp hs
  unfold Agrees
  rw [length_slice]

/-- A separated list shows whether all pieces have arrived. -/
theorem complete_iff (h : Cuts 0 cs n) (hR : ∀ q ∈ R, q ∈ pieces 0 cs n) {m : List (Seg β)}
    (hsep : Separated m) (hext : SameExtent m (R.map (pieceSeg f))) (hagree : ∀ s ∈ m, Agrees f s) :
    ((∃ p, m = [((0 : Int), p)]) ∧ ∃ q ∈ R, q.2 = n) ↔ ∀ q ∈ pieces 0 cs n, q ∈ R := by
  constructor
  · rintro ⟨⟨p, rfl⟩, last, hlast, hstop⟩ q hq
    have hbounds := bounds_of_mem_pieces h hq
    have hlastBounds := bounds_of_mem_pieces h (hR last hlast)
    -- the segment reaches the end of the stream, so it covers the start of the piece
    have hend : Covers [((0 : Int), p)] ((n : Int) - 1) := by
      rw [hext.1, covers_pieceSegs h hR]
      exact ⟨last, hlast, by omega⟩
    simp only [covers_cons, covers_nil, or_false, Seg.stop_mk] at hend
    have hstart : Covers [((0 : Int), p)] (q.1 : Int) := by
      simp only [covers_cons, covers_nil, or_false, Seg.stop_mk]
      omega
    rw [hext.1, covers_pieceSegs h hR] at hstart
    obtain ⟨q', hq', hin⟩ := hstart
    have heq : q = q' := eq_of_mem_pieces h hq (hR q' hq') (x := q.1) (by omega) (by omega)
    rwa [heq]
  · intro hall
    have hwhole := eq_whole h hR hsep hext hagree hall
    obtain ⟨q, hq, hin⟩ := exists_mem_pieces h (Nat.zero_le (n - 1)) (Nat.sub_lt h.lt Nat.one_pos)
    have hbounds := bounds_of_mem_pieces h hq
    exact ⟨⟨_, hwhole⟩, q, hall q hq, by omega⟩

end Complete

end Netstar.Lib
