import Mathlib.Data.List.Perm.Basic
import Mathlib.Data.Int.Order.Basic

/-!
# `Netstar.Lib.Segments`: byte ranges cut out of one stream

A segment is a start offset and the elements that stand from there on. This file collects
what a reassembly proof needs about lists of segments, and it names no program.

* `slice f b n` is the part of the stream `f` that starts at `b` and has `n` elements.
  `Agrees f s` says that the segment `s` carries the stream's own elements.
* `Covers l x` says that some segment of `l` holds the element at offset `x`. `Touches l x`
  also counts the offset right after a segment. The two together see empty segments, and
  they see where two segments meet.
* `SameExtent l l'` says that `l` and `l'` cover and touch the same offsets. It is the
  congruence that the merging steps keep: `sameExtent_absorb` drops a contained segment,
  and `sameExtent_join` replaces two segments that meet by their union.
* `Sorted` orders segments by their starts, and `Separated` also asks for a gap between
  neighbours. `eq_of_separated` states that a separated list is determined by its extent
  and the stream, so it is a normal form.
-/

set_option autoImplicit false

namespace Netstar.Lib

/-- A segment: the offset of its first element, and its elements. -/
abbrev Seg (β : Type) := Int × List β

namespace Seg

variable {β : Type}

/-- The offset right after the last element. -/
def stop (s : Seg β) : Int := s.1 + s.2.length

/-- A segment does not stop before it starts. -/
theorem start_le_stop (s : Seg β) : s.1 ≤ s.stop := by
  unfold stop
  omega

/-- A segment stops behind its last element. -/
@[simp] theorem stop_mk (b : Int) (p : List β) : stop (b, p) = b + p.length := rfl

end Seg

variable {β : Type}

/-- The `n` elements of the stream `f` from offset `b` on. -/
def slice (f : Int → β) (b : Int) (n : Nat) : List β :=
  (List.range n).map fun i : Nat => f (b + i)

/-- A slice has the length asked for. -/
@[simp] theorem length_slice (f : Int → β) (b : Int) (n : Nat) : (slice f b n).length = n := by
  simp [slice]

/-- A slice of length zero is empty. -/
@[simp] theorem slice_zero (f : Int → β) (b : Int) : slice f b 0 = [] := rfl

/-- An element of a slice is one of the stream. -/
theorem getElem?_slice (f : Int → β) (b : Int) (n i : Nat) :
    (slice f b n)[i]? = if i < n then some (f (b + i)) else none := by
  rw [slice, List.getElem?_map]
  split
  · rw [List.getElem?_range (by assumption)]
    rfl
  · rw [List.getElem?_eq_none (by simp; omega)]
    rfl

/-- Two consecutive slices are one slice. -/
theorem slice_append (f : Int → β) (b : Int) (n m : Nat) :
    slice f b n ++ slice f (b + n) m = slice f b (n + m) := by
  apply List.ext_getElem?
  intro i
  rw [List.getElem?_append, length_slice]
  simp only [getElem?_slice]
  split
  · rw [if_pos (by omega)]
  · by_cases him : i - n < m
    · rw [if_pos him, if_pos (by omega)]
      congr 2
      omega
    · rw [if_neg him, if_neg (by omega)]

/-- `slice_append`, with the slices given by their ends. -/
theorem slice_append_between (f : Int → β) {a b c : Int} (hab : a ≤ b) (hbc : b ≤ c) :
    slice f a (b - a).toNat ++ slice f b (c - b).toNat = slice f a (c - a).toNat := by
  have hb : b = a + ((b - a).toNat : Nat) := by omega
  have hc : (c - a).toNat = (b - a).toNat + (c - b).toNat := by omega
  rw [hc, ← slice_append, ← hb]

/-- Dropping the front of a slice moves its start. -/
theorem drop_slice (f : Int → β) (b : Int) (n k : Nat) :
    (slice f b n).drop k = slice f (b + k) (n - k) := by
  apply List.ext_getElem?
  intro i
  rw [List.getElem?_drop, getElem?_slice, getElem?_slice]
  by_cases h : k + i < n
  · rw [if_pos h, if_pos (by omega)]
    congr 2
    push_cast
    omega
  · rw [if_neg h, if_neg (by omega)]

/-- The segment `s` carries the elements of the stream `f` at its own offsets. -/
def Agrees (f : Int → β) (s : Seg β) : Prop := s.2 = slice f s.1 s.2.length

/-- A segment that agrees with the stream still agrees when its front is dropped. -/
theorem Agrees.drop {f : Int → β} {b : Int} {p : List β} (h : Agrees f (b, p)) (k : Nat) :
    Agrees f (b + k, p.drop k) := by
  have hp : p = slice f b p.length := h
  show p.drop k = slice f (b + k) (p.drop k).length
  rw [List.length_drop, ← drop_slice, ← hp]

/-- A segment followed by the elements right after it. -/
theorem Agrees.append {f : Int → β} {b : Int} {p q : List β} (hp : Agrees f (b, p))
    (hq : Agrees f (b + p.length, q)) : Agrees f (b, p ++ q) := by
  have hp' : p = slice f b p.length := hp
  have hq' : q = slice f (b + p.length) q.length := hq
  show p ++ q = slice f b (p ++ q).length
  rw [List.length_append, ← slice_append, ← hp', ← hq']

/-- Two segments of one stream that overlap or meet: the first one extended with what the
second one adds. -/
theorem Agrees.extend {f : Int → β} {b c : Int} {p q : List β} (hp : Agrees f (b, p))
    (hq : Agrees f (c, q)) (k : Nat) (hmeet : c + k = b + p.length) :
    Agrees f (b, p ++ q.drop k) := by
  apply hp.append
  rw [← hmeet]
  exact hq.drop k

/-! ### Extent -/

/-- Some segment of `l` holds the element at `x`. -/
def Covers (l : List (Seg β)) (x : Int) : Prop := ∃ s ∈ l, s.1 ≤ x ∧ x < s.stop

/-- Some segment of `l` holds the element at `x` or ends right before `x`. -/
def Touches (l : List (Seg β)) (x : Int) : Prop := ∃ s ∈ l, s.1 ≤ x ∧ x ≤ s.stop

/-- No segments cover nothing. -/
@[simp] theorem covers_nil (x : Int) : ¬ Covers ([] : List (Seg β)) x := by simp [Covers]

/-- No segments touch nothing. -/
@[simp] theorem touches_nil (x : Int) : ¬ Touches ([] : List (Seg β)) x := by simp [Touches]

/-- What one segment more covers. -/
@[simp] theorem covers_cons (s : Seg β) (l : List (Seg β)) (x : Int) :
    Covers (s :: l) x ↔ (s.1 ≤ x ∧ x < s.stop) ∨ Covers l x := by
  simp [Covers]

/-- What one segment more touches. -/
@[simp] theorem touches_cons (s : Seg β) (l : List (Seg β)) (x : Int) :
    Touches (s :: l) x ↔ (s.1 ≤ x ∧ x ≤ s.stop) ∨ Touches l x := by
  simp [Touches]

/-- The two lists cover the same offsets, and they touch the same offsets. -/
def SameExtent (l l' : List (Seg β)) : Prop :=
  (∀ x, Covers l x ↔ Covers l' x) ∧ ∀ x, Touches l x ↔ Touches l' x

/-- Segments have the extent of themselves. -/
theorem SameExtent.refl (l : List (Seg β)) : SameExtent l l :=
  ⟨fun _ => Iff.rfl, fun _ => Iff.rfl⟩

/-- Having the same extent goes both ways. -/
theorem SameExtent.symm {l l' : List (Seg β)} (h : SameExtent l l') : SameExtent l' l :=
  ⟨fun x => (h.1 x).symm, fun x => (h.2 x).symm⟩

/-- Segments with the extent of third ones have the same extent. -/
theorem SameExtent.trans {l l' l'' : List (Seg β)} (h : SameExtent l l')
    (h' : SameExtent l' l'') : SameExtent l l'' :=
  ⟨fun x => (h.1 x).trans (h'.1 x), fun x => (h.2 x).trans (h'.2 x)⟩

/-- One segment may be added to both sides. -/
theorem SameExtent.cons {l l' : List (Seg β)} (s : Seg β) (h : SameExtent l l') :
    SameExtent (s :: l) (s :: l') := by
  refine ⟨fun x => ?_, fun x => ?_⟩
  · rw [covers_cons, covers_cons, h.1 x]
  · rw [touches_cons, touches_cons, h.2 x]

/-- The extent reads only which segments the list has. -/
theorem sameExtent_of_mem_iff {l l' : List (Seg β)} (h : ∀ s, s ∈ l ↔ s ∈ l') :
    SameExtent l l' := by
  refine ⟨fun x => ?_, fun x => ?_⟩
  · simp [Covers, h]
  · simp [Touches, h]

/-- The order of two segments does not matter. -/
theorem sameExtent_swap (s t : Seg β) (l : List (Seg β)) :
    SameExtent (s :: t :: l) (t :: s :: l) :=
  sameExtent_of_mem_iff fun u => by
    simp only [List.mem_cons]
    tauto

/-- A segment inside another one adds nothing. -/
theorem sameExtent_absorb {s t : Seg β} (l : List (Seg β)) (hstart : t.1 ≤ s.1)
    (hstop : s.stop ≤ t.stop) : SameExtent (s :: t :: l) (t :: l) := by
  refine ⟨fun x => ?_, fun x => ?_⟩
  · simp only [covers_cons]
    constructor
    · rintro (h | h)
      · exact Or.inl ⟨by omega, by omega⟩
      · exact h
    · exact Or.inr
  · simp only [touches_cons]
    constructor
    · rintro (h | h)
      · exact Or.inl ⟨by omega, by omega⟩
      · exact h
    · exact Or.inr

/-- Two segments that overlap or meet have the extent of their union. -/
theorem sameExtent_join {s t u : Seg β} (l : List (Seg β)) (hst : s.1 ≤ t.1)
    (hmeet : t.1 ≤ s.stop) (hle : s.stop ≤ t.stop) (hu : u.1 = s.1) (hu' : u.stop = t.stop) :
    SameExtent (s :: t :: l) (u :: l) := by
  have ht := t.start_le_stop
  refine ⟨fun x => ?_, fun x => ?_⟩
  · simp only [covers_cons, hu, hu', ← or_assoc]
    refine or_congr_left ⟨?_, fun h => ?_⟩
    · rintro (h | h) <;> omega
    · by_cases hx : x < s.stop
      · exact Or.inl ⟨h.1, hx⟩
      · exact Or.inr ⟨by omega, h.2⟩
  · simp only [touches_cons, hu, hu', ← or_assoc]
    refine or_congr_left ⟨?_, fun h => ?_⟩
    · rintro (h | h) <;> omega
    · by_cases hx : x ≤ s.stop
      · exact Or.inl ⟨h.1, hx⟩
      · exact Or.inr ⟨by omega, h.2⟩

/-- `sameExtent_join` for the segment that a merging step builds: the first segment extended
with what the second one adds. -/
theorem sameExtent_extend (l : List (Seg β)) (b c : Int) (p q : List β) (hbc : b ≤ c)
    (hmeet : c ≤ b + p.length) (hlt : b + p.length < c + q.length) :
    SameExtent ((b, p) :: (c, q) :: l) ((b, p ++ q.drop (b + p.length - c).toNat) :: l) := by
  refine sameExtent_join (s := (b, p)) (t := (c, q)) l hbc hmeet (le_of_lt hlt) rfl ?_
  simp only [Seg.stop_mk, List.length_append, List.length_drop]
  omega

/-- Bounds on the segments of a list pass to every list with the same extent. -/
theorem SameExtent.bounds {l l' : List (Seg β)} (h : SameExtent l l') {lo hi : Int}
    (hl' : ∀ t ∈ l', lo ≤ t.1 ∧ t.stop ≤ hi) : ∀ s ∈ l, lo ≤ s.1 ∧ s.stop ≤ hi := by
  intro s hs
  have hle := s.start_le_stop
  obtain ⟨t, ht, hstart, -⟩ := (h.2 s.1).mp ⟨s, hs, le_refl _, hle⟩
  obtain ⟨u, hu, -, hstop⟩ := (h.2 s.stop).mp ⟨s, hs, hle, le_refl _⟩
  exact ⟨le_trans (hl' t ht).1 hstart, le_trans hstop (hl' u hu).2⟩

/-! ### Order and the normal form -/

/-- The starts grow strictly. -/
def Sorted (l : List (Seg β)) : Prop := l.Pairwise fun a b => a.1 < b.1

/-- The segments are in order, and there is at least one missing element between two of
them. -/
def Separated (l : List (Seg β)) : Prop := l.Pairwise fun a b => a.stop < b.1

/-- Separated segments are sorted. -/
theorem Separated.sorted {l : List (Seg β)} (h : Separated l) : Sorted l :=
  List.Pairwise.imp (fun hab => lt_of_le_of_lt (Seg.start_le_stop _) hab) h

/-- Every segment after the head of a separated list starts after the head's end. -/
theorem Separated.head_lt {s : Seg β} {l : List (Seg β)} (h : Separated (s :: l)) :
    ∀ t ∈ l, s.stop < t.1 := (List.pairwise_cons.mp h).1

/-- The segments behind the first one are separated. -/
theorem Separated.tail {s : Seg β} {l : List (Seg β)} (h : Separated (s :: l)) :
    Separated l := (List.pairwise_cons.mp h).2

/-- An offset that the tail of a separated list touches stands after the head's end. -/
theorem Separated.lt_of_touches {s : Seg β} {l : List (Seg β)} (h : Separated (s :: l))
    {x : Int} (hx : Touches l x) : s.stop < x := by
  obtain ⟨t, ht, hstart, -⟩ := hx
  exact lt_of_lt_of_le (h.head_lt t ht) hstart

/-- What is covered is touched. -/
theorem touches_of_covers {l : List (Seg β)} {x : Int} (h : Covers l x) : Touches l x := by
  obtain ⟨s, hs, hstart, hstop⟩ := h
  exact ⟨s, hs, hstart, le_of_lt hstop⟩

/-- The head of a separated list starts at the least offset the list touches. -/
theorem Separated.start_le_of_touches {s : Seg β} {l : List (Seg β)} (h : Separated (s :: l))
    {x : Int} (hx : Touches (s :: l) x) : s.1 ≤ x := by
  rw [touches_cons] at hx
  rcases hx with hx | hx
  · exact hx.1
  · exact le_of_lt (lt_of_le_of_lt s.start_le_stop (h.lt_of_touches hx))

/-- Two separated lists with one extent: the head of the first ends no later than the head
of the second. The offset at the second end would be covered by the first list only. -/
theorem stop_le_of_sameExtent {s t : Seg β} {l l' : List (Seg β)} (ht : Separated (t :: l'))
    (h : SameExtent (s :: l) (t :: l')) (hst : s.1 = t.1) : s.stop ≤ t.stop := by
  by_contra hlt
  have hle := t.start_le_stop
  have hcov : Covers (s :: l) t.stop := by
    rw [covers_cons]
    exact Or.inl ⟨by omega, by omega⟩
  rw [h.1, covers_cons] at hcov
  rcases hcov with hcov | hcov
  · exact absurd hcov.2 (lt_irrefl _)
  · exact absurd (ht.lt_of_touches (touches_of_covers hcov)) (lt_irrefl _)

/-- A separated list without its head covers and touches exactly what the list covers and
touches past the head's end. -/
theorem Separated.extent_tail {s : Seg β} {l : List (Seg β)} (h : Separated (s :: l))
    (x : Int) : (Covers l x ↔ Covers (s :: l) x ∧ s.stop < x) ∧
      (Touches l x ↔ Touches (s :: l) x ∧ s.stop < x) := by
  refine ⟨⟨fun hx => ?_, ?_⟩, ⟨fun hx => ?_, ?_⟩⟩
  · exact ⟨(covers_cons s l x).mpr (Or.inr hx), h.lt_of_touches (touches_of_covers hx)⟩
  · rintro ⟨hx, hlt⟩
    rw [covers_cons] at hx
    rcases hx with hx | hx
    · omega
    · exact hx
  · exact ⟨(touches_cons s l x).mpr (Or.inr hx), h.lt_of_touches hx⟩
  · rintro ⟨hx, hlt⟩
    rw [touches_cons] at hx
    rcases hx with hx | hx
    · omega
    · exact hx

/-- A separated list of segments of one stream is determined by its extent. -/
theorem eq_of_separated {f : Int → β} :
    ∀ {l l' : List (Seg β)}, Separated l → Separated l' → (∀ s ∈ l, Agrees f s) →
      (∀ s ∈ l', Agrees f s) → SameExtent l l' → l = l' := by
  intro l
  induction l with
  | nil =>
    intro l' _ _ _ _ h
    cases l' with
    | nil => rfl
    | cons t l' =>
      have ht : Touches (t :: l') t.1 := (touches_cons t l' t.1).mpr
        (Or.inl ⟨le_refl _, t.start_le_stop⟩)
      exact absurd ((h.2 t.1).mpr ht) (touches_nil _)
  | cons s l ih =>
    intro l' hl hl' hs ht h
    cases l' with
    | nil =>
      have hself : Touches (s :: l) s.1 := (touches_cons s l s.1).mpr
        (Or.inl ⟨le_refl _, s.start_le_stop⟩)
      exact absurd ((h.2 s.1).mp hself) (touches_nil _)
    | cons t l' =>
      have hself : Touches (s :: l) s.1 := (touches_cons s l s.1).mpr
        (Or.inl ⟨le_refl _, s.start_le_stop⟩)
      have hself' : Touches (t :: l') t.1 := (touches_cons t l' t.1).mpr
        (Or.inl ⟨le_refl _, t.start_le_stop⟩)
      -- The starts agree because each is the least offset the lists touch.
      have hstart : s.1 = t.1 := le_antisymm
        (hl.start_le_of_touches ((h.2 t.1).mpr hself'))
        (hl'.start_le_of_touches ((h.2 s.1).mp hself))
      have hstop : s.stop = t.stop := le_antisymm
        (stop_le_of_sameExtent hl' h hstart)
        (stop_le_of_sameExtent hl h.symm hstart.symm)
      have hlen : s.2.length = t.2.length := by
        simp only [Seg.stop] at hstop
        omega
      have hst : s = t := by
        refine Prod.ext hstart ?_
        rw [hs s (by simp), ht t (by simp), hstart, hlen]
      subst hst
      have htail : SameExtent l l' := by
        refine ⟨fun x => ?_, fun x => ?_⟩
        · rw [(hl.extent_tail x).1, (hl'.extent_tail x).1, h.1 x]
        · rw [(hl.extent_tail x).2, (hl'.extent_tail x).2, h.2 x]
      rw [ih hl.tail hl'.tail (fun u hu => hs u (by simp [hu]))
        (fun u hu => ht u (by simp [hu])) htail]

end Netstar.Lib
