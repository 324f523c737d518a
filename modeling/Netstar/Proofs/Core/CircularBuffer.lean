import Netstar.Lib.Result
import Netstar.Lib.Ring
import Netstar.Spec.Core.CircularBuffer

/-!
# `Netstar.Proofs.Core.CircularBuffer`: the circular buffer is a deque

`Cells b ys` says that the storage of `b` is a ring that has the cells `ys` from `begin` on. The
capacity is a power of two, so a mask of a 64-bit counter is a slot of the ring even when the counter
has wrapped. Each operation is followed on the cells: an expansion copies them, `erase` moves some of
them over the others.

The run fails in two places. `reserve` computes `log2ceil` of a size of 1, which counts the leading
zeros of 0, and shifts by 64 for a size above 2^63. And a push that expands the buffer reads its argument
afterwards, also when it refers to an element in the storage that the expansion has freed.
-/

set_option autoImplicit false

namespace Netstar.Proofs.Core.CircularBuffer

open Netstar.Lib
open Netstar.Lib.Ring (Holds)
open Netstar.Spec.Core
open Netstar.Spec.Core.CircularBuffer

variable {α : Type} {b : CircularBuffer α} {ys : List (Cell α)} {xs : List α}

/-- The storage has the cells `ys` from the counter `start` on. -/
structure Stored (b : CircularBuffer α) (start : UInt64) (ys : List (Cell α)) : Prop where
  capacity : b.capacity.toNat = 0 ∨ ∃ k < 63, b.capacity.toNat = 2 ^ k
  length : b.storage.length = b.capacity.toNat
  holds : Holds b.storage start.toNat ys

/-- The buffer has the cells `ys`, whatever is in them. -/
structure Cells (b : CircularBuffer α) (ys : List (Cell α)) : Prop
    extends Stored b b.first ys where
  last : b.last = b.first + UInt64.ofNat ys.length

/-- What a user of the buffer sees is what a user of the deque sees. -/
structure Agrees (b : CircularBuffer α) (xs : List α) : Prop where
  size : b.size.toNat = xs.length
  empty : b.empty = true ↔ xs = []
  front : xs ≠ [] → b.front = xs.head?
  back : xs ≠ [] → b.back = xs.getLast?
  get : ∀ i < xs.length, b.get (UInt64.ofNat i) = xs[i]?
  iterate : b.iterate = xs.map some
  capacity : b.capacity.toNat = 0 ∨ ∃ k, b.capacity.toNat = 2 ^ k
  size_le : xs.length ≤ b.capacity.toNat

/-! ### Counters and slots -/

/-- A counter that wraps stays in the same slot, because the capacity divides 2^64. -/
theorem toNat_add_ofNat_mod (x : UInt64) (i : Nat) {k : Nat} (hk : k < 64) :
    (x + UInt64.ofNat i).toNat % 2 ^ k = (x.toNat + i) % 2 ^ k := by
  have hdvd : 2 ^ k ∣ 2 ^ 64 := Nat.pow_dvd_pow 2 (Nat.le_of_lt hk)
  rw [UInt64.toNat_add, UInt64.toNat_ofNat', Nat.add_mod_mod, Nat.mod_mod_of_dvd _ hdvd]

/-- The mask takes an index to its place in the storage. -/
theorem mask_eq {k : Nat} (hcap : b.capacity.toNat = 2 ^ k) (idx : UInt64) :
    b.mask idx = idx.toNat % 2 ^ k := by
  have hpos : 0 < 2 ^ k := Nat.two_pow_pos k
  have hle : (1 : UInt64) ≤ b.capacity := UInt64.le_iff_toNat_le.mpr (by rw [hcap]; exact hpos)
  rw [mask, UInt64.toNat_and, UInt64.toNat_sub_of_le _ _ hle, hcap]
  exact Nat.and_two_pow_sub_one_eq_mod _ _

namespace Stored

variable {start : UInt64}

/-- The elements fit into the storage. -/
theorem length_le (h : Stored b start ys) : ys.length ≤ b.capacity.toNat := by
  rw [← h.length]
  exact h.holds.fits

/-- The storage has at most `2^62` places. -/
theorem capacity_lt (h : Stored b start ys) : b.capacity.toNat < 2 ^ 63 := by
  rcases h.capacity with hzero | ⟨k, hk, hcap⟩
  · rw [hzero]
    decide
  · rw [hcap]
    exact Nat.pow_lt_pow_right (by decide) hk

/-- A buffer holds fewer than `2^63` elements. -/
theorem length_lt (h : Stored b start ys) : ys.length < 2 ^ 63 :=
  Nat.lt_of_le_of_lt h.length_le h.capacity_lt

/-- The slot of the element at position `i`. -/
theorem mask_add (h : Stored b start ys) (hpos : 0 < b.capacity.toNat) (i : Nat) :
    b.mask (start + UInt64.ofNat i) = (start.toNat + i) % b.storage.length := by
  rcases h.capacity with hzero | ⟨k, hk, hcap⟩
  · exact absurd hpos (by omega)
  · rw [mask_eq hcap, toNat_add_ofNat_mod _ _ (by omega), h.length, hcap]

/-- An element is at the place of its index. -/
theorem getElem?_mask (h : Stored b start ys) {i : Nat} (hi : i < ys.length) :
    b.storage[b.mask (start + UInt64.ofNat i)]? = ys[i]? := by
  have hle := h.length_le
  rw [h.mask_add (by omega)]
  exact h.holds.get i hi

/-- A write at position `i`. -/
theorem write (h : Stored b start ys) {i : Nat} (hi : i < ys.length) (c : Cell α) :
    ∃ cells, b.write (start + UInt64.ofNat i) c = .ok { b with storage := cells } ∧
      Stored { b with storage := cells } start (ys.set i c) := by
  have hle := h.length_le
  have hmask := h.mask_add (by omega) i
  have hlt : b.mask (start + UInt64.ofNat i) < b.storage.length := by
    rw [hmask]
    exact h.holds.slot_lt hi _
  refine ⟨_, if_pos hlt, ⟨h.capacity, ?_, ?_⟩⟩
  · rw [← h.length]
    exact List.length_set
  · show Holds (b.storage.set (b.mask _) c) _ _
    rw [hmask]
    exact h.holds.set hi c

/-- The first cells are given up. -/
theorem drop (h : Stored b start ys) {d : Nat} (hd : d ≤ ys.length) :
    Stored b (start + UInt64.ofNat d) (ys.drop d) where
  capacity := h.capacity
  length := h.length
  holds := by
    refine (h.holds.drop d).congr ?_
    rw [h.length]
    rcases h.capacity with hzero | ⟨k, hk, hcap⟩
    · have hle := h.length_le
      obtain rfl : d = 0 := by omega
      simp
    · rw [hcap, toNat_add_ofNat_mod _ _ (by omega)]

end Stored

namespace Cells

/-- A new buffer is empty. -/
theorem create : Cells (CircularBuffer.create : CircularBuffer α) [] where
  capacity := .inl rfl
  length := rfl
  holds := Holds.nil _ _
  last := rfl

/-- The counters are one length apart. -/
theorem size_eq (h : Cells b ys) : (b.last - b.first).toNat = ys.length := by
  have hlt := h.length_lt
  rw [h.last, show b.first + UInt64.ofNat ys.length - b.first = UInt64.ofNat ys.length by grind]
  exact UInt64.toNat_ofNat_of_lt' (show _ < 2 ^ 64 by omega)

/-- The first cells are given up. -/
theorem advance (h : Cells b ys) {d : Nat} (hd : d ≤ ys.length) :
    Cells { b with first := b.first + UInt64.ofNat d } (ys.drop d) where
  capacity := h.capacity
  length := h.length
  holds := (h.drop hd).holds
  last := by
    show b.last = b.first + UInt64.ofNat d + UInt64.ofNat (ys.drop d).length
    rw [h.last, List.length_drop, UInt64.ofNat_sub hd]
    grind

/-- The last cells are given up. -/
theorem truncate (h : Cells b ys) {d : Nat} (hd : d ≤ ys.length) :
    Cells { b with last := b.first + UInt64.ofNat d } (ys.take d) where
  capacity := h.capacity
  length := h.length
  holds := h.holds.take d
  last := by
    rw [List.length_take, Nat.min_eq_left hd]

end Cells

/-! ### Expansion -/

/-- `n` counters from `i` on. -/
def countFrom (i : UInt64) (n : Nat) : List UInt64 :=
  (List.range n).map fun k => i + UInt64.ofNat k

/-- The first index, and the rest. -/
theorem countFrom_succ (i : UInt64) (n : Nat) :
    countFrom i (n + 1) = i :: countFrom (i + 1) n := by
  rw [countFrom, List.range_succ_eq_map, List.map_cons, List.map_map, countFrom]
  congr 1
  · simp
  · refine List.map_congr_left fun k _ => ?_
    show i + UInt64.ofNat (k + 1) = i + 1 + UInt64.ofNat k
    rw [UInt64.ofNat_add]
    grind

/-- The indices from `begin` to `end`. -/
theorem indices_eq (h : Cells b ys) : indices b.first b.last = countFrom b.first ys.length := by
  rw [indices, h.size_eq, countFrom]

/-- One of the copies from position `p` on throws. -/
def CopyThrows (env : Env) (p n : Nat) : Prop :=
  env.nothrowMove = false ∧ ∃ q < n, env.copyThrowsAt = some (p + q)

/-- The loop moves or copies the cells into the new storage. If a copy throws, the buffer is as it
was. -/
theorem transferPass1_spec {env : Env} {b : CircularBuffer α} {start : UInt64}
    {ys done : List (Cell α)} {r : Nat} (h : Stored b start ys) (hroom : ys.length ≤ r) :
    ∃ b' fresh threw,
      transferPass1 env b (done ++ List.replicate r .raw) done.length (countFrom start ys.length) =
        .ok (b', fresh, threw) ∧
      (threw = true → b' = b) ∧ (threw = true ↔ CopyThrows env done.length ys.length) ∧
      (threw = false → fresh = done ++ ys ++ List.replicate (r - ys.length) .raw) := by
  induction ys generalizing b start done r with
  | nil =>
    refine ⟨b, _, false, rfl, fun _ => rfl, ⟨(fun hfalse => by cases hfalse), ?_⟩, fun _ => by simp⟩
    rintro ⟨-, q, hq, -⟩
    exact absurd hq (Nat.not_lt_zero q)
  | cons y ys ih =>
    obtain ⟨r, rfl⟩ : ∃ r', r = r' + 1 := ⟨r - 1, by rw [List.length_cons] at hroom; omega⟩
    have hroom' : ys.length ≤ r := Nat.le_of_succ_le_succ hroom
    have hlen : ¬ (done ++ List.replicate (r + 1) (Cell.raw : Cell α)).length ≤ done.length := by
      rw [List.length_append, List.length_replicate]
      omega
    have hzero : start + UInt64.ofNat 0 = start := by simp
    have hobject : b.storage.getD (b.mask start) .raw = y := by
      have hget := h.getElem?_mask (i := 0) (by simp)
      rw [hzero] at hget
      rw [List.getD_eq_getElem?_getD, hget]
      rfl
    have hset : (done ++ List.replicate (r + 1) Cell.raw).set done.length y =
        (done ++ [y]) ++ List.replicate r Cell.raw := by
      rw [List.set_append_right _ _ (Nat.le_refl _), Nat.sub_self, List.replicate_succ,
        List.set_cons_zero, List.append_assoc]
      rfl
    have hfinal : (done ++ [y]) ++ ys ++ List.replicate (r - ys.length) Cell.raw =
        done ++ (y :: ys) ++ List.replicate (r + 1 - (ys.length + 1)) Cell.raw := by
      simp
    rw [List.length_cons, countFrom_succ, transferPass1, if_neg hlen, hobject]
    dsimp only
    rw [hset, ← hfinal, show done.length + 1 = (done ++ [y]).length by simp]
    by_cases hmove : env.nothrowMove = true
    · -- The object is moved, and its old place is raw memory.
      obtain ⟨cells, hwrite, hstored⟩ := h.write (i := 0) (by simp) .raw
      rw [hzero] at hwrite
      have hrest : Stored { b with storage := cells } (start + 1) ys := hstored.drop (d := 1) (by simp)
      obtain ⟨b', fresh, threw, hloop, -, hthrew, hdone⟩ := @ih _ _ (done ++ [y]) _ hrest hroom'
      have hnever {p n : Nat} : ¬CopyThrows env p n := fun hcopy => by
        rw [CopyThrows, hmove] at hcopy
        cases hcopy.1
      have hcalm : ¬threw = true := fun ht => hnever (hthrew.mp ht)
      refine ⟨b', fresh, threw, ?_, fun ht => absurd ht hcalm,
        ⟨fun ht => absurd ht hcalm, fun hcopy => absurd hcopy hnever⟩, hdone⟩
      rw [if_pos hmove, hwrite]
      exact hloop
    · rw [if_neg hmove]
      have hmove : env.nothrowMove = false := by simpa using hmove
      by_cases hthrow : env.copyThrowsAt = some done.length
      · rw [if_pos hthrow]
        exact ⟨b, _, true, rfl, fun _ => rfl,
          ⟨fun _ => ⟨hmove, 0, Nat.succ_pos _, hthrow⟩, fun _ => rfl⟩, fun hfalse => by cases hfalse⟩
      · rw [if_neg hthrow]
        obtain ⟨b', fresh, threw, hloop, hsame, hthrew, hdone⟩ :=
          @ih _ _ (done ++ [y]) _ (h.drop (d := 1) (by simp)) hroom'
        refine ⟨b', fresh, threw, hloop, hsame, hthrew.trans ?_, hdone⟩
        -- The copy at this position did not throw, so a later one does.
        have hlen : (done ++ [y]).length = done.length + 1 := by simp
        rw [CopyThrows, CopyThrows, hlen]
        refine and_congr_right fun _ => ⟨?_, ?_⟩
        · rintro ⟨q, hq, hat⟩
          exact ⟨q + 1, Nat.succ_lt_succ hq, by rw [hat]; congr 1; omega⟩
        · rintro ⟨q, hq, hat⟩
          cases q with
          | zero => exact absurd hat hthrow
          | succ q => exact ⟨q, Nat.lt_of_succ_lt_succ hq, by rw [hat]; congr 1; omega⟩

/-- The growth of a buffer with `n` elements throws: the allocator refuses the new capacity, or a copy
throws. -/
def GrowThrows (env : Env) (n : Nat) (newCap : UInt64) : Prop :=
  (env.badAlloc || decide (ptrdiffMax < newCap)) = true ∨ CopyThrows env 0 n

/-- An expansion keeps the cells, also when it throws. -/
theorem expandTo_spec (env : Env) {newCap : UInt64} (h : Cells b ys) {k : Nat}
    (hcap : newCap.toNat = 2 ^ k) (hroom : ys.length ≤ 2 ^ k) :
    ∃ b' threw, b.expandTo env newCap = .ok (b', threw) ∧ Cells b' ys ∧
      (threw = false → b'.capacity = newCap) ∧ (threw = true ↔ GrowThrows env ys.length newCap) := by
  rw [expandTo]
  -- The allocator refuses, or a copy throws in the first pass: the old storage stays in both cases.
  by_cases halloc : (env.badAlloc || decide (ptrdiffMax < newCap)) = true
  · exact ⟨b, true, by rw [if_pos halloc]; rfl, h, (fun hfalse => by cases hfalse),
      fun _ => .inl halloc, fun _ => rfl⟩
  · have hk : k < 63 := by
      have hle : newCap.toNat ≤ 2 ^ 63 - 1 := by
        simp only [Bool.or_eq_true, decide_eq_true_eq, not_or, UInt64.not_lt] at halloc
        exact UInt64.le_iff_toNat_le.mp halloc.2
      rw [hcap] at hle
      exact (Nat.pow_lt_pow_iff_right (by decide)).mp (Nat.lt_of_le_of_lt hle (by decide))
    -- The new capacity is below 2^63, since the allocator takes no more than `ptrdiff_t` can count.
    obtain ⟨b', fresh, threw, hloop, hsame, hthrew, hdone⟩ :=
      @transferPass1_spec α env b b.first ys [] (2 ^ k) h.toStored hroom
    have hgrow : threw = true ↔ GrowThrows env ys.length newCap :=
      hthrew.trans (or_iff_right halloc).symm
    rw [List.nil_append, List.length_nil, ← hcap] at hloop
    simp only [if_neg halloc, indices_eq h]
    cases threw with
    | true =>
      obtain rfl := hsame rfl
      exact ⟨b', true, by rw [hloop]; rfl, h, (fun hfalse => by cases hfalse), hgrow⟩
    -- The second pass does not throw, and the elements lie at the front of the new storage.
    | false =>
      refine ⟨⟨fresh, 0, UInt64.ofNat ys.length, newCap⟩, false, ?_, ⟨⟨.inr ⟨k, hk, hcap⟩, ?_, ?_⟩, ?_⟩,
        fun _ => rfl, hgrow⟩
      · have hlen : (countFrom b.first ys.length).length = ys.length := by simp [countFrom]
        rw [hloop, ok_bind, hlen]
        rfl
      · rw [hdone rfl, hcap]
        simp
        omega
      · rw [hdone rfl, List.nil_append]
        exact Holds.of_take _ _
      · simp

/-- `expand()` doubles the capacity, or it becomes 1. -/
theorem doubled_capacity (h : b.capacity.toNat = 0 ∨ ∃ k < 63, b.capacity.toNat = 2 ^ k) :
    ∃ k, (max (b.capacity * 2) 1).toNat = 2 ^ k ∧ b.capacity.toNat < 2 ^ k := by
  have hmax : max (b.capacity * 2) 1 = if b.capacity * 2 ≤ 1 then 1 else b.capacity * 2 := rfl
  rcases h with hzero | ⟨k, hk, hcap⟩
  · have hcap : b.capacity = 0 := UInt64.toNat_inj.mp hzero
    exact ⟨0, by rw [hcap]; decide, by rw [hzero]; decide⟩
  · have hpos := Nat.two_pow_pos k
    have hlt : 2 ^ k < 2 ^ 63 := Nat.pow_lt_pow_right (by decide) hk
    have htwice : (b.capacity * 2).toNat = 2 ^ (k + 1) := by
      rw [UInt64.toNat_mul, hcap, Nat.pow_succ]
      exact Nat.mod_eq_of_lt (by show 2 ^ k * 2 < 2 ^ 64; omega)
    have hne : ¬ b.capacity * 2 ≤ 1 := by
      rw [UInt64.le_iff_toNat_le, htwice, Nat.pow_succ]
      show ¬ 2 ^ k * 2 ≤ 1
      omega
    refine ⟨k + 1, by rw [hmax, if_neg hne, htwice], ?_⟩
    rw [hcap, Nat.pow_succ]
    omega

/-- A push expands the buffer, and that throws. -/
def ExpandThrows (env : Env) (b : CircularBuffer α) : Prop :=
  b.full = true ∧ GrowThrows env b.size.toNat (max (b.capacity * 2) 1)

/-- After `maybe_expand` there is room for one more element, unless it threw. Without an expansion the
buffer is the same. -/
theorem maybeExpand_spec (env : Env) (h : Cells b ys) :
    ∃ b' threw, b.maybeExpand env = .ok (b', threw) ∧ Cells b' ys ∧
      (threw = false → ys.length < b'.capacity.toNat) ∧ (threw = true ↔ ExpandThrows env b) := by
  have hle := h.length_le
  have hlt := h.length_lt
  have hsize : (b.last - b.first + 1).toNat = ys.length + 1 := by
    rw [UInt64.toNat_add, h.size_eq, UInt64.toNat_one]
    omega
  have hcount : b.size.toNat = ys.length := h.size_eq
  rw [maybeExpand, ExpandThrows]
  by_cases hfull : b.full = true
  · rw [if_pos hfull, expand]
    have hfull' := UInt64.lt_iff_toNat_lt.mp (of_decide_eq_true hfull)
    rw [hsize] at hfull'
    obtain ⟨k, hcap, hgrow⟩ := doubled_capacity h.capacity
    obtain ⟨b', threw, hexpand, hcells, hnew, hthrew⟩ := expandTo_spec env h hcap (by omega)
    rw [hcount]
    refine ⟨b', threw, hexpand, hcells, fun ht => ?_, hthrew.trans (and_iff_right hfull).symm⟩
    rw [hnew ht, hcap]
    omega
  · rw [if_neg hfull]
    refine ⟨b, false, rfl, h, fun _ => ?_, (fun hfalse => by cases hfalse), fun ht => absurd ht.1 hfull⟩
    have hnot := UInt64.le_iff_toNat_le.mp (UInt64.not_lt.mp fun hlt => hfull (decide_eq_true hlt))
    omega


/-- For the sizes that `reserve` can handle, `log2ceil` gives a power of two that is large enough. -/
theorem log2ceil_spec {size : UInt64} (hone : 1 < size.toNat) (hle : size.toNat ≤ 2 ^ 63) :
    ∃ k newCap, log2ceil size = .ok k ∧ shiftOne k = .ok newCap ∧ newCap.toNat = 2 ^ k ∧
      size.toNat ≤ 2 ^ k ∧ 2 ^ k < 2 * size.toNat := by
  have hsub : (size - 1).toNat = size.toNat - 1 :=
    UInt64.toNat_sub_of_le _ _ (UInt64.le_iff_toNat_le.mpr (Nat.le_of_lt hone))
  have hne : size - 1 ≠ 0 := by
    intro hzero
    have htoNat := congrArg UInt64.toNat hzero
    rw [hsub, UInt64.toNat_zero] at htoNat
    omega
  have hlog : (size.toNat - 1).log2 < 63 := (Nat.log2_lt (by omega)).mpr (by omega)
  have hlarge : size.toNat - 1 < 2 ^ ((size.toNat - 1).log2 + 1) := Nat.lt_log2_self
  have hsmall : 2 ^ (size.toNat - 1).log2 ≤ size.toNat - 1 := Nat.log2_self_le (by omega)
  refine ⟨(size.toNat - 1).log2 + 1, UInt64.ofNat (2 ^ ((size.toNat - 1).log2 + 1)), ?_, ?_, ?_, ?_, ?_⟩
  · rw [log2ceil, countLeadingZeros, if_neg hne, ok_bind, hsub]
    show Except.ok _ = Except.ok _
    congr 1
    omega
  · rw [shiftOne, if_neg (by omega)]
  · exact UInt64.toNat_ofNat_of_lt'
      (show _ < 2 ^ 64 from Nat.pow_lt_pow_right Nat.one_lt_two (by omega))
  · omega
  · rw [Nat.pow_succ]
    omega

/-- The sizes for which `log2ceil` or the shift has no result. -/
theorem log2ceil_undefined {size : UInt64} (hpos : 0 < size.toNat)
    (hsize : ¬ (size ≠ 1 ∧ size.toNat ≤ 2 ^ 63)) :
    ∃ e, (log2ceil size >>= shiftOne) = .error e := by
  by_cases hone : size = 1
  · subst hone
    exact ⟨.countOfZero, rfl⟩
  · have hlarge : 2 ^ 63 < size.toNat := Nat.lt_of_not_le fun hle => hsize ⟨hone, hle⟩
    have hsub : (size - 1).toNat = size.toNat - 1 :=
      UInt64.toNat_sub_of_le _ _ (UInt64.le_iff_toNat_le.mpr hpos)
    have hne : size - 1 ≠ 0 := by
      intro hzero
      have htoNat := congrArg UInt64.toNat hzero
      rw [hsub, UInt64.toNat_zero] at htoNat
      omega
    have hlog : (size.toNat - 1).log2 = 63 := by
      have hbound := UInt64.toNat_lt size
      exact (Nat.log2_eq_iff (by omega)).mpr ⟨by omega, by omega⟩
    refine ⟨.shiftTooLong, ?_⟩
    rw [log2ceil, countLeadingZeros, if_neg hne, hsub, hlog]
    rfl

/-- The sizes that `reserve` cannot handle. -/
theorem reserve_undefined (env : Env) {size : UInt64} (hlt : b.capacity < size)
    (hsize : ¬ (size ≠ 1 ∧ size.toNat ≤ 2 ^ 63)) : ∃ e, b.reserve env size = .error e := by
  have hlt' := UInt64.lt_iff_toNat_lt.mp hlt
  obtain ⟨e, herror⟩ := log2ceil_undefined (by omega) hsize
  refine ⟨e, ?_⟩
  rw [reserve, if_pos hlt]
  show ((log2ceil size) >>= fun k => shiftOne k >>= fun newCap => b.expandTo env newCap) = _
  rw [← bind_assoc, herror]
  rfl

/-- `reserve` keeps the elements. It throws only when the growth to a capacity it asks for does. -/
theorem reserve_spec (env : Env) {size : UInt64} (h : Cells b ys)
    (hsize : b.capacity < size → size ≠ 1 ∧ size.toNat ≤ 2 ^ 63) :
    ∃ b' threw, b.reserve env size = .ok (b', threw) ∧ Cells b' ys ∧
      (threw = true → ∃ newCap, size.toNat ≤ newCap.toNat ∧ newCap.toNat < 2 * size.toNat ∧
        GrowThrows env b.size.toNat newCap) := by
  rw [reserve]
  by_cases hlt : b.capacity < size
  · obtain ⟨hone, hle⟩ := hsize hlt
    have hlt' := UInt64.lt_iff_toNat_lt.mp hlt
    have hne : size.toNat ≠ 1 := fun heq => hone (UInt64.toNat_inj.mp heq)
    obtain ⟨k, newCap, hlog, hshift, hcap, hgrow, hsmall⟩ := log2ceil_spec (by omega) hle
    have hlen := h.length_le
    obtain ⟨b', threw, hexpand, hcells, -, hthrew⟩ := expandTo_spec env h hcap (by omega)
    have hcount : b.size.toNat = ys.length := h.size_eq
    refine ⟨b', threw, ?_, hcells, fun ht => ⟨newCap, by omega, by omega, hcount ▸ hthrew.mp ht⟩⟩
    rw [if_pos hlt, hlog, ok_bind, hshift, ok_bind]
    exact hexpand
  · exact ⟨b, false, by rw [if_neg hlt]; rfl, h, fun hfalse => by cases hfalse⟩

/-! ### Pushes and pops -/

/-- A write behind the last element. -/
theorem Cells.pushBack (h : Cells b ys) (hroom : ys.length < b.capacity.toNat) (c : Cell α) :
    ∃ cells, b.write b.last c = .ok { b with storage := cells } ∧
      Cells { b with storage := cells, last := b.last + 1 } (ys ++ [c]) := by
  have hmask := h.mask_add (by omega) ys.length
  rw [← h.last] at hmask
  have hlt : b.mask b.last < b.storage.length := by
    rw [hmask, h.length]
    exact Nat.mod_lt _ (by omega)
  refine ⟨_, if_pos hlt, ⟨⟨h.capacity, ?_, ?_⟩, ?_⟩⟩
  · rw [← h.length]
    exact List.length_set
  · show Holds (b.storage.set (b.mask b.last) c) _ _
    rw [hmask]
    exact h.holds.push_back (by rw [h.length]; exact hroom) c
  · show b.last + 1 = b.first + UInt64.ofNat (ys ++ [c]).length
    rw [List.length_append, UInt64.ofNat_add, h.last]
    show b.first + UInt64.ofNat ys.length + 1 = b.first + (UInt64.ofNat ys.length + 1)
    grind

/-- A write before the first element. -/
theorem Cells.pushFront (h : Cells b ys) (hroom : ys.length < b.capacity.toNat) (c : Cell α) :
    ∃ cells, b.write (b.first - 1) c = .ok { b with storage := cells } ∧
      Cells { b with storage := cells, first := b.first - 1 } (c :: ys) := by
  obtain ⟨k, hk, hcap⟩ := h.capacity.resolve_left (by omega)
  have hmask : b.mask (b.first - 1) = (b.first - 1).toNat % b.storage.length := by
    rw [mask_eq hcap, h.length, hcap]
  have hnext : ((b.first - 1).toNat + 1) % b.storage.length = b.first.toNat % b.storage.length := by
    have hadd := toNat_add_ofNat_mod (b.first - 1) 1 (k := k) (by omega)
    rw [h.length, hcap, ← hadd, show b.first - 1 + UInt64.ofNat 1 = b.first by
      show b.first - 1 + 1 = b.first
      grind]
  have hlt : b.mask (b.first - 1) < b.storage.length := by
    rw [hmask, h.length]
    exact Nat.mod_lt _ (by omega)
  refine ⟨_, if_pos hlt, ⟨⟨h.capacity, ?_, ?_⟩, ?_⟩⟩
  · rw [← h.length]
    exact List.length_set
  · show Holds (b.storage.set (b.mask (b.first - 1)) c) _ _
    rw [hmask]
    exact h.holds.push_front (by rw [h.length]; exact hroom) hnext c
  · show b.last = b.first - 1 + UInt64.ofNat (ys.length + 1)
    rw [UInt64.ofNat_add, h.last]
    show b.first + UInt64.ofNat ys.length = b.first - 1 + (UInt64.ofNat ys.length + 1)
    grind

/-- The element at a position. -/
theorem Cells.read (h : Cells b (xs.map .live)) {i : Nat} (hi : i < xs.length) :
    b.read (b.first + UInt64.ofNat i) = xs[i]? := by
  rw [CircularBuffer.read, h.getElem?_mask (by rw [List.length_map]; exact hi), List.getElem?_map,
    List.getElem?_eq_getElem hi]
  rfl

/-- A push is defined unless its argument is an element of the buffer, and an expansion frees the storage
of this element. -/
def PushDefined (env : Env) (b : CircularBuffer α) : Arg α → Prop
  | .value _ => True
  | .element _ => b.full = true → ExpandThrows env b

/-- The start of a push: the expansion throws, or there is room and the argument can be read. -/
theorem argument_spec (env : Env) {arg : Arg α} (h : Cells b (xs.map .live))
    (harg : ∀ i, arg = .element i → i < xs.length) (hdefined : PushDefined env b arg) :
    ∃ b' threw, b.maybeExpand env = .ok (b', threw) ∧ Cells b' (xs.map .live) ∧
      (threw = true ∧ ExpandThrows env b ∨
        threw = false ∧ (xs.map Cell.live).length < b'.capacity.toNat ∧
          ∃ x, b'.argument b.full arg = .ok x ∧ argValue xs arg = [x]) := by
  obtain ⟨b', threw, hexpand, hcells, hroom, hthrew⟩ := maybeExpand_spec env h
  refine ⟨b', threw, hexpand, hcells, ?_⟩
  cases threw with
  | true => exact .inl ⟨rfl, hthrew.mp rfl⟩
  | false =>
    refine .inr ⟨rfl, hroom rfl, ?_⟩
    cases arg with
    | value x => exact ⟨x, rfl, rfl⟩
    | element i =>
      have hi := harg i rfl
      have hfull : b.full = false := by
        cases hfull : b.full with
        | false => rfl
        | true => exact absurd (hthrew.mpr (hdefined hfull)) (by decide)
      have hget : b'.get (UInt64.ofNat i) = some xs[i] :=
        (hcells.read hi).trans (List.getElem?_eq_getElem hi)
      refine ⟨xs[i], ?_, by rw [argValue, List.getElem?_eq_getElem hi]; rfl⟩
      rw [argument, hfull, if_neg (by decide), hget]

/-- The old storage is gone when the argument is read. -/
theorem argument_freed (env : Env) {arg : Arg α} (h : Cells b (xs.map .live))
    (hdefined : ¬PushDefined env b arg) :
    ∃ b', b.maybeExpand env = .ok (b', false) ∧ b'.argument b.full arg = .error .freedStorage := by
  obtain ⟨b', threw, hexpand, -, -, hthrew⟩ := maybeExpand_spec env h
  cases arg with
  | value x => exact absurd trivial hdefined
  | element i =>
    obtain ⟨hfull, hgrows⟩ := Classical.not_imp.mp hdefined
    have hcalm : threw = false := by
      cases threw with
      | false => rfl
      | true => exact absurd (hthrew.mp rfl) hgrows
    rw [hcalm] at hexpand
    exact ⟨b', hexpand, by rw [argument, if_pos hfull]⟩

/-- A push at the back adds the value of its argument, or throws for a reason. -/
theorem pushBack_spec (env : Env) {arg : Arg α} (h : Cells b (xs.map .live))
    (harg : ∀ i, arg = .element i → i < xs.length) (hdefined : PushDefined env b arg) :
    ∃ b' threw, b.pushBack env arg = .ok (b', threw) ∧
      Cells b' ((if threw then xs else xs ++ argValue xs arg).map .live) ∧
      (threw = true → env.ctorThrows = true ∨ ExpandThrows env b) := by
  obtain ⟨b₁, threw, hexpand, hcells, ⟨rfl, hgrows⟩ | ⟨rfl, hroom, x, hx, hvalue⟩⟩ :=
    argument_spec env h harg hdefined
  · exact ⟨b₁, true, by rw [CircularBuffer.pushBack, hexpand]; rfl, hcells, fun _ => .inr hgrows⟩
  · rw [CircularBuffer.pushBack, hexpand, ok_bind]
    dsimp only
    rw [if_neg (by decide), hx, ok_bind]
    by_cases hthrow : env.ctorThrows = true
    · exact ⟨b₁, true, by rw [if_pos hthrow]; rfl, hcells, fun _ => .inl hthrow⟩
    · obtain ⟨cells, hwrite, hpush⟩ := hcells.pushBack hroom (.live x)
      refine ⟨_, false, by rw [if_neg hthrow, hwrite]; rfl, ?_, fun hfalse => by cases hfalse⟩
      simpa [hvalue] using hpush

/-- A push at the front adds the value of its argument, or throws for a reason. -/
theorem pushFront_spec (env : Env) {arg : Arg α} (h : Cells b (xs.map .live))
    (harg : ∀ i, arg = .element i → i < xs.length) (hdefined : PushDefined env b arg) :
    ∃ b' threw, b.pushFront env arg = .ok (b', threw) ∧
      Cells b' ((if threw then xs else argValue xs arg ++ xs).map .live) ∧
      (threw = true → env.ctorThrows = true ∨ ExpandThrows env b) := by
  obtain ⟨b₁, threw, hexpand, hcells, ⟨rfl, hgrows⟩ | ⟨rfl, hroom, x, hx, hvalue⟩⟩ :=
    argument_spec env h harg hdefined
  · exact ⟨b₁, true, by rw [CircularBuffer.pushFront, hexpand]; rfl, hcells, fun _ => .inr hgrows⟩
  · rw [CircularBuffer.pushFront, hexpand, ok_bind]
    dsimp only
    rw [if_neg (by decide), hx, ok_bind]
    by_cases hthrow : env.ctorThrows = true
    · exact ⟨b₁, true, by rw [if_pos hthrow]; rfl, hcells, fun _ => .inl hthrow⟩
    · obtain ⟨cells, hwrite, hpush⟩ := hcells.pushFront hroom (.live x)
      refine ⟨_, false, by rw [if_neg hthrow, hwrite]; rfl, ?_, fun hfalse => by cases hfalse⟩
      simpa [hvalue] using hpush

/-- A pop removes the first element. -/
theorem popFront_spec {x : α} (h : Cells b ((x :: xs).map .live)) :
    ∃ b', b.popFront = .ok b' ∧ Cells b' (xs.map .live) := by
  obtain ⟨cells, hwrite, hstored⟩ := h.write (i := 0) (by simp) .raw
  rw [show b.first + UInt64.ofNat 0 = b.first by simp] at hwrite
  have hcells : Cells { b with storage := cells } (.raw :: xs.map .live) :=
    ⟨hstored, by simpa using h.last⟩
  exact ⟨_, by rw [CircularBuffer.popFront, hwrite]; rfl, hcells.advance (d := 1) (by simp)⟩

/-- A pop removes the last element. -/
theorem popBack_spec {x : α} (h : Cells b ((xs ++ [x]).map .live)) :
    ∃ b', b.popBack = .ok b' ∧ Cells b' (xs.map .live) := by
  obtain ⟨cells, hwrite, hstored⟩ := h.write (i := xs.length) (by simp) .raw
  have hlast : b.last - 1 = b.first + UInt64.ofNat xs.length := by
    rw [h.last, List.length_map, List.length_append, UInt64.ofNat_add]
    show b.first + (UInt64.ofNat xs.length + 1) - 1 = b.first + UInt64.ofNat xs.length
    grind
  have hcells : Cells { b with storage := cells } (((xs ++ [x]).map .live).set xs.length .raw) :=
    ⟨hstored, by rw [List.length_set]; exact h.last⟩
  have htake := hcells.truncate (d := xs.length) (by simp)
  rw [List.take_set_of_le (Nat.le_refl _), ← List.map_take, List.take_left] at htake
  refine ⟨_, by rw [CircularBuffer.popBack, hlast, hwrite]; rfl, ?_⟩
  rw [hlast]
  exact htake

/-! ### Erase -/

/-- A write to an element. -/
theorem Cells.write (h : Cells b ys) {i : Nat} (hi : i < ys.length) (c : Cell α) :
    ∃ cells, b.write (b.first + UInt64.ofNat i) c = .ok { b with storage := cells } ∧
      Cells { b with storage := cells } (ys.set i c) := by
  obtain ⟨cells, hwrite, hstored⟩ := h.toStored.write hi c
  exact ⟨cells, hwrite, hstored, by rw [List.length_set]; exact h.last⟩

/-- The next index. -/
theorem add_ofNat_succ (x : UInt64) (i : Nat) :
    x + UInt64.ofNat (i + 1) = x + UInt64.ofNat i + 1 := by
  rw [UInt64.ofNat_add]
  show x + (UInt64.ofNat i + 1) = x + UInt64.ofNat i + 1
  grind

/-- A move from one element to another one. -/
theorem moveAssign_spec (h : Cells b ys) {s t : Nat} (hs : s < ys.length) (ht : t < ys.length)
    (hne : s ≠ t) : ∃ cells zs,
      b.moveAssign (b.first + UInt64.ofNat s) (b.first + UInt64.ofNat t) =
        .ok { b with storage := cells } ∧
      Cells { b with storage := cells } zs ∧ zs.length = ys.length ∧ zs[t]? = ys[s]? ∧
      ∀ i, i ≠ s → i ≠ t → zs[i]? = ys[i]? := by
  have hobject : b.storage.getD (b.mask (b.first + UInt64.ofNat s)) .raw = ys[s] := by
    rw [List.getD_eq_getElem?_getD, h.getElem?_mask hs, List.getElem?_eq_getElem hs]
    rfl
  obtain ⟨cells₁, hwrite₁, hcells₁⟩ := h.write ht ys[s]
  obtain ⟨cells₂, hwrite₂, hcells₂⟩ := hcells₁.write (i := s) (by simpa using hs) .moved
  refine ⟨cells₂, _, ?_, hcells₂, by simp, ?_, fun i his hit => ?_⟩
  · rw [moveAssign, hobject, hwrite₁]
    exact hwrite₂
  · rw [List.getElem?_set_ne hne, List.getElem?_set_self ht, List.getElem?_eq_getElem hs]
  · rw [List.getElem?_set_ne (Ne.symm his), List.getElem?_set_ne (Ne.symm hit)]

/-- `std::move_backward` over `n` elements. What it moved past is not said. -/
theorem moveBackward_spec {n : Nat} {b : CircularBuffer α} {ys : List (Cell α)} (h : Cells b ys)
    {s t : Nat} (hn : n ≤ s) (hst : s < t) (ht : t ≤ ys.length) : ∃ cells zs,
      b.moveBackward (b.first + UInt64.ofNat s) (b.first + UInt64.ofNat t) n =
        .ok { b with storage := cells } ∧
      Cells { b with storage := cells } zs ∧ zs.length = ys.length ∧
      (∀ i, t - n ≤ i → i < t → zs[i]? = ys[i - (t - s)]?) ∧ ∀ i, t ≤ i → zs[i]? = ys[i]? := by
  induction n generalizing b ys s t with
  | zero => exact ⟨b.storage, ys, rfl, h, rfl, fun i hi hit => by omega, fun _ _ => rfl⟩
  | succ n ih =>
    -- The last element goes first, and its old place is behind those that are still to move.
    obtain ⟨s, rfl⟩ : ∃ s', s = s' + 1 := ⟨s - 1, by omega⟩
    obtain ⟨t, rfl⟩ : ∃ t', t = t' + 1 := ⟨t - 1, by omega⟩
    obtain ⟨cells₁, ys₁, hassign, hcells₁, hlen₁, hmoved, hkept⟩ :=
      moveAssign_spec h (s := s) (t := t) (by omega) (by omega) (by omega)
    obtain ⟨cells, zs, hloop, hcells, hlen, hdone, hbeyond⟩ :=
      ih hcells₁ (s := s) (t := t) (by omega) (by omega) (by omega)
    refine ⟨cells, zs, ?_, hcells, hlen.trans hlen₁, fun i hi hit => ?_, fun i hi => ?_⟩
    · have hpred : ∀ k : Nat, b.first + UInt64.ofNat (k + 1) - 1 = b.first + UInt64.ofNat k := by
        intro k
        rw [add_ofNat_succ]
        grind
      rw [moveBackward, hpred, hpred, hassign]
      exact hloop
    · -- The element moved first is not touched by the rest of the loop.
      by_cases hlast : i = t
      · rw [hbeyond i (by omega), hlast, hmoved]
        congr 1
        omega
      · rw [hdone i (by omega) (by omega), hkept _ (by omega) (by omega)]
        congr 1
        omega
    · rw [hbeyond i (by omega), hkept i (by omega) (by omega)]

/-- `std::move` over `n` elements, to places before them. -/
theorem moveForward_spec {n : Nat} {b : CircularBuffer α} {ys : List (Cell α)} (h : Cells b ys)
    {s t : Nat} (hst : t < s) (hs : s + n ≤ ys.length) : ∃ cells zs,
      b.moveForward (b.first + UInt64.ofNat s) (b.first + UInt64.ofNat t) n =
        .ok { b with storage := cells } ∧
      Cells { b with storage := cells } zs ∧ zs.length = ys.length ∧
      (∀ i, t ≤ i → i < t + n → zs[i]? = ys[i + (s - t)]?) ∧ ∀ i, i < t → zs[i]? = ys[i]? := by
  induction n generalizing b ys s t with
  | zero => exact ⟨b.storage, ys, rfl, h, rfl, fun i hi hit => by omega, fun _ _ => rfl⟩
  | succ n ih =>
    obtain ⟨cells₁, ys₁, hassign, hcells₁, hlen₁, hmoved, hkept⟩ :=
      moveAssign_spec h (s := s) (t := t) (by omega) (by omega) (by omega)
    obtain ⟨cells, zs, hloop, hcells, hlen, hdone, hbefore⟩ :=
      ih hcells₁ (s := s + 1) (t := t + 1) (by omega) (by omega)
    refine ⟨cells, zs, ?_, hcells, hlen.trans hlen₁, fun i hi hit => ?_, fun i hi => ?_⟩
    · rw [moveForward, hassign, ok_bind, ← add_ofNat_succ, ← add_ofNat_succ]
      exact hloop
    · by_cases hfirst : i = t
      · rw [hbefore i (by omega), hfirst, hmoved]
        congr 1
        omega
      · rw [hdone i (by omega) (by omega), hkept _ (by omega) (by omega)]
        congr 1
        omega
    · rw [hbefore i (by omega), hkept i (by omega) (by omega)]

/-- Destroying the objects from position `o` on. -/
theorem destroy_spec {m : Nat} {b : CircularBuffer α} {ys : List (Cell α)} (h : Cells b ys) {o : Nat}
    (ho : o + m ≤ ys.length) : ∃ cells zs,
      (countFrom (b.first + UInt64.ofNat o) m).foldlM (fun b i => b.write i .raw) b =
        .ok { b with storage := cells } ∧
      Cells { b with storage := cells } zs ∧ zs.length = ys.length ∧
      ∀ i, i < o ∨ o + m ≤ i → zs[i]? = ys[i]? := by
  induction m generalizing b ys o with
  | zero => exact ⟨b.storage, ys, rfl, h, rfl, fun _ _ => rfl⟩
  | succ m ih =>
    obtain ⟨cells₁, hwrite, hcells₁⟩ := h.write (i := o) (by omega) .raw
    obtain ⟨cells, zs, hloop, hcells, hlen, hkept⟩ :=
      ih hcells₁ (o := o + 1) (by rw [List.length_set]; omega)
    refine ⟨cells, zs, ?_, hcells, by rw [hlen, List.length_set], fun i hi => ?_⟩
    · rw [countFrom_succ, List.foldlM_cons, hwrite, ok_bind, ← add_ofNat_succ]
      exact hloop
    · rw [hkept i (by omega), List.getElem?_set_ne (by omega)]

/-- The loop at the end of `erase` touches nothing outside its range, and nothing at all when the
counters have wrapped in between. -/
theorem destroyUpTo_spec (h : Cells b ys) {o d : Nat} (hod : o ≤ d) (hd : d ≤ ys.length) :
    ∃ cells zs, b.destroyUpTo (b.first + UInt64.ofNat o) (b.first + UInt64.ofNat d) =
        .ok { b with storage := cells } ∧
      Cells { b with storage := cells } zs ∧ zs.length = ys.length ∧
      ∀ i, i < o ∨ d ≤ i → zs[i]? = ys[i]? := by
  rw [destroyUpTo]
  by_cases hlt : b.first + UInt64.ofNat o < b.first + UInt64.ofNat d
  · have hlength := h.length_lt
    have hindices : indices (b.first + UInt64.ofNat o) (b.first + UInt64.ofNat d) =
        countFrom (b.first + UInt64.ofNat o) (d - o) := by
      rw [indices, show b.first + UInt64.ofNat d - (b.first + UInt64.ofNat o) =
        UInt64.ofNat (d - o) by rw [UInt64.ofNat_sub hod]; grind,
      UInt64.toNat_ofNat_of_lt' (show _ < 2 ^ 64 by omega),
        countFrom]
    obtain ⟨cells, zs, hloop, hcells, hlen, hkept⟩ := destroy_spec h (o := o) (m := d - o) (by omega)
    refine ⟨cells, zs, ?_, hcells, hlen, fun i hi => hkept i (by omega)⟩
    rw [if_pos hlt, hindices]
    exact hloop
  · exact ⟨b.storage, ys, by rw [if_neg hlt], h, rfl, fun _ _ => rfl⟩

/-- `erase` removes a range and closes the gap. -/
theorem erase_spec {i j : Nat} (h : Cells b ys) (hij : i ≤ j) (hj : j ≤ ys.length) :
    ∃ b', b.erase (UInt64.ofNat i) (UInt64.ofNat j) = .ok b' ∧
      Cells b' (ys.take i ++ ys.drop j) := by
  have hlength := h.length_lt
  rw [erase]
  dsimp only
  by_cases heq : b.first + UInt64.ofNat i = b.first + UInt64.ofNat j
  · have hsame : i = j := by
      have hnat : UInt64.ofNat i = UInt64.ofNat j := by grind
      have htoNat := congrArg UInt64.toNat hnat
      rwa [UInt64.toNat_ofNat_of_lt' (show _ < 2 ^ 64 by omega),
        UInt64.toNat_ofNat_of_lt' (show _ < 2 ^ 64 by omega)] at htoNat
    subst hsame
    exact ⟨b, by rw [if_pos heq]; rfl, by rw [List.take_append_drop]; exact h⟩
  · have hlt : i < j := by
      rcases Nat.lt_or_eq_of_le hij with hlt | rfl
      · exact hlt
      · exact absurd rfl heq
    have hfront : b.first + UInt64.ofNat i - b.first = UInt64.ofNat i := by grind
    have hback : b.last - (b.first + UInt64.ofNat j) = UInt64.ofNat (ys.length - j) := by
      rw [h.last, UInt64.ofNat_sub hj]
      grind
    rw [if_neg heq, hfront, hback, UInt64.toNat_ofNat_of_lt' (show _ < 2 ^ 64 by omega),
      UInt64.toNat_ofNat_of_lt' (show _ < 2 ^ 64 by omega)]
    -- Either direction of the move is right, so the comparison of the distances does not matter.
    split
    · obtain ⟨cells₁, ys₁, hmove, hcells₁, hlen₁, hmoved, hbeyond⟩ :=
        moveBackward_spec h (Nat.le_refl i) hlt hj
      obtain ⟨cells, zs, hdestroy, hcells, hlen, hkept⟩ :=
        destroyUpTo_spec hcells₁ (o := 0) (d := j - i) (by omega) (by omega)
      have hstart : b.first + UInt64.ofNat j - UInt64.ofNat i = b.first + UInt64.ofNat (j - i) := by
        rw [UInt64.ofNat_sub hij]
        grind
      rw [show b.first + UInt64.ofNat 0 = b.first by simp] at hdestroy
      refine ⟨_, by rw [hmove, ok_bind, hstart, hdestroy]; rfl, ?_⟩
      have hrest : zs.drop (j - i) = ys.take i ++ ys.drop j := by
        refine List.ext_getElem? fun k => ?_
        rw [List.getElem?_drop, hkept _ (.inr (by omega))]
        rcases Nat.lt_or_ge k i with hk | hk
        · rw [hmoved _ (by omega) (by omega), List.getElem?_append_left (by rw [List.length_take]; omega),
            List.getElem?_take_of_lt hk]
          congr 1
          omega
        · rw [hbeyond _ (by omega), List.getElem?_append_right (by rw [List.length_take]; omega),
            List.getElem?_drop, List.length_take]
          congr 1
          omega
      rw [← hrest]
      exact hcells.advance (d := j - i) (by omega)
    · obtain ⟨cells₁, ys₁, hmove, hcells₁, hlen₁, hmoved, hbefore⟩ :=
        moveForward_spec (n := ys.length - j) h hlt (by omega)
      obtain ⟨cells, zs, hdestroy, hcells, hlen, hkept⟩ :=
        destroyUpTo_spec hcells₁ (o := i + (ys.length - j)) (d := ys.length) (by omega) (by omega)
      have hend : b.first + UInt64.ofNat i + UInt64.ofNat (ys.length - j) =
          b.first + UInt64.ofNat (i + (ys.length - j)) := by
        rw [UInt64.ofNat_add]
        grind
      rw [← h.last] at hdestroy
      refine ⟨_, by rw [hmove, ok_bind, hend, hdestroy]; rfl, ?_⟩
      have hrest : zs.take (i + (ys.length - j)) = ys.take i ++ ys.drop j := by
        refine List.ext_getElem? fun k => ?_
        rcases Nat.lt_or_ge k (i + (ys.length - j)) with hk | hk
        · rw [List.getElem?_take_of_lt hk, hkept _ (.inl hk)]
          rcases Nat.lt_or_ge k i with hki | hki
          · rw [hbefore _ hki, List.getElem?_append_left (by rw [List.length_take]; omega),
              List.getElem?_take_of_lt hki]
          · rw [hmoved _ hki hk, List.getElem?_append_right (by rw [List.length_take]; omega),
              List.getElem?_drop, List.length_take]
            congr 1
            omega
        · rw [List.getElem?_eq_none (by rw [List.length_take]; omega), List.getElem?_eq_none]
          rw [List.length_append, List.length_take, List.length_drop]
          omega
      rw [← hrest]
      exact hcells.truncate (d := i + (ys.length - j)) (by omega)

/-! ### What a user sees -/

/-- The accessors answer as those of the list do. -/
theorem Cells.agrees (h : Cells b (xs.map .live)) : Agrees b xs := by
  have hsize : (b.last - b.first).toNat = xs.length := by
    rw [h.size_eq, List.length_map]
  have hlt := h.length_lt
  rw [List.length_map] at hlt
  -- The counters are equal only when the buffer is empty: it has less than 2^64 elements.
  have hempty : b.first = b.last ↔ xs = [] := by
    constructor
    · intro heq
      rw [heq, UInt64.sub_self] at hsize
      exact List.length_eq_zero_iff.mp hsize.symm
    · rintro rfl
      simpa using h.last.symm
  constructor
  · exact hsize
  · rw [CircularBuffer.empty, beq_iff_eq]
    exact hempty
  · intro hne
    have hread := h.read (i := 0) (List.length_pos_of_ne_nil hne)
    rw [show b.first + UInt64.ofNat 0 = b.first by simp] at hread
    rw [CircularBuffer.front, hread, List.head?_eq_getElem?]
  · intro hne
    have hpos := List.length_pos_of_ne_nil hne
    have hlast : b.last - 1 = b.first + UInt64.ofNat (xs.length - 1) := by
      rw [h.last, List.length_map, UInt64.ofNat_sub hpos]
      show b.first + UInt64.ofNat xs.length - 1 = b.first + (UInt64.ofNat xs.length - 1)
      grind
    rw [CircularBuffer.back, hlast, h.read (by omega), List.getLast?_eq_getElem?]
  · exact fun i hi => h.read hi
  · -- The indices that an iteration visits are those of the elements, in order.
    rw [iterate, indices_eq h, countFrom, List.map_map, List.length_map]
    refine List.ext_getElem (by simp) fun i hi hi' => ?_
    have hlen : i < xs.length := by simpa using hi
    rw [List.getElem_map, List.getElem_map, List.getElem_range]
    exact (h.read hlen).trans (List.getElem?_eq_getElem hlen)
  · rcases h.capacity with hzero | ⟨k, -, hcap⟩
    · exact .inl hzero
    · exact .inr ⟨k, hcap⟩
  · have hle := h.length_le
    rwa [List.length_map] at hle

/-! ### Runs -/

/-- A `reserve` does not count the zeros of 0 or shift by 64. -/
def ReserveDefined (b : CircularBuffer α) (size : UInt64) : Prop :=
  b.capacity < size → size ≠ 1 ∧ size.toNat ≤ 2 ^ 63

/-- The call on the buffer has a meaning. -/
def CallDefined (env : Env) (b : CircularBuffer α) : Call (Arg α) → Prop
  | .reserve size => ReserveDefined b size
  | .pushFront arg => PushDefined env b arg
  | .pushBack arg => PushDefined env b arg
  | .popFront | .popBack | .erase _ _ => True

/-- The event has a meaning. -/
def EventDefined (s : Session α) : Event α → Prop
  | .call env i c => CallDefined env (s.buffers i) c
  | .move _ _ => True

/-- What makes a call throw: the constructor of the new element, or the growth of the storage, by the
allocator or a copy. -/
def MayThrow (env : Env) (b : CircularBuffer α) : Call (Arg α) → Prop
  | .pushFront _ | .pushBack _ => env.ctorThrows = true ∨ ExpandThrows env b
  | .reserve size => ∃ newCap, size.toNat ≤ newCap.toNat ∧ newCap.toNat < 2 * size.toNat ∧
      GrowThrows env b.size.toNat newCap
  | .popFront | .popBack | .erase _ _ => False

/-- The program has a meaning so far, and every buffer is the deque beside it. A call throws only for a
reason outside the buffer. -/
structure Refines (s : Session α) : Prop where
  defined : s.undefined = false
  agrees : ∀ i, Agrees (s.buffers i) (s.deques i)
  throws : ∀ i env c b, Allowed (s.deques i) c → bufferCall env (s.buffers i) c = .ok (b, true) →
    MayThrow env (s.buffers i) c

/-- The invariant of a session. -/
def Inv (s : Session α) : Prop := ∀ i, Cells (s.buffers i) ((s.deques i).map .live)

/-- A program without buffers. -/
theorem Inv.create : Inv (Session.create : Session α) := fun _ => Cells.create

/-- Every call that is defined does what its list operation does, or it throws for a reason and
changes nothing. -/
theorem bufferCall_spec (env : Env) (h : Cells b (xs.map .live)) {c : Call (Arg α)}
    (hallowed : Allowed xs c) (hdefined : CallDefined env b c) :
    ∃ b' threw, bufferCall env b c = .ok (b', threw) ∧
      Cells b' ((if threw then xs else dequeCall xs c).map .live) ∧ (threw = true → MayThrow env b c) := by
  cases c with
  | pushFront arg => exact pushFront_spec env h (fun i hi => by subst hi; exact hallowed) hdefined
  | pushBack arg => exact pushBack_spec env h (fun i hi => by subst hi; exact hallowed) hdefined
  | popFront =>
    obtain ⟨x, xs, rfl⟩ := List.exists_cons_of_ne_nil hallowed
    obtain ⟨b', hpop, hcells⟩ := popFront_spec h
    exact ⟨b', false, by rw [bufferCall, hpop]; rfl, hcells, fun hfalse => by cases hfalse⟩
  | popBack =>
    obtain ⟨xs, x, rfl⟩ := (List.eq_nil_or_concat xs).resolve_left hallowed
    rw [List.concat_eq_append] at h ⊢
    obtain ⟨b', hpop, hcells⟩ := popBack_spec h
    refine ⟨b', false, by rw [bufferCall, hpop]; rfl, ?_, fun hfalse => by cases hfalse⟩
    simpa [dequeCall] using hcells
  | reserve size =>
    obtain ⟨b', threw, hcall, hcells, hthrew⟩ := reserve_spec env h hdefined
    exact ⟨b', threw, hcall, by simpa [dequeCall] using hcells, hthrew⟩
  | erase i j =>
    obtain ⟨b', herase, hcells⟩ := erase_spec h hallowed.1 (by rw [List.length_map]; exact hallowed.2)
    refine ⟨b', false, by rw [bufferCall, herase]; rfl, ?_, fun hfalse => by cases hfalse⟩
    rw [← List.map_take, ← List.map_drop, ← List.map_append] at hcells
    exact hcells

/-- The calls that have no meaning. -/
theorem bufferCall_undefined (env : Env) (h : Cells b (xs.map .live)) {c : Call (Arg α)}
    (hdefined : ¬CallDefined env b c) : ∃ e, bufferCall env b c = .error e := by
  cases c with
  | reserve size =>
    obtain ⟨hlt, hsize⟩ := Classical.not_imp.mp hdefined
    exact reserve_undefined env hlt hsize
  | pushFront arg =>
    obtain ⟨b', hexpand, hargument⟩ := argument_freed env h hdefined
    refine ⟨.freedStorage, ?_⟩
    rw [bufferCall, CircularBuffer.pushFront, hexpand, ok_bind]
    dsimp only
    rw [if_neg (by decide), hargument]
    rfl
  | pushBack arg =>
    obtain ⟨b', hexpand, hargument⟩ := argument_freed env h hdefined
    refine ⟨.freedStorage, ?_⟩
    rw [bufferCall, CircularBuffer.pushBack, hexpand, ok_bind]
    dsimp only
    rw [if_neg (by decide), hargument]
    rfl
  | popFront | popBack | erase i j => exact absurd trivial hdefined

/-- In a state with the invariant the buffers answer as their lists do. -/
theorem Inv.refines {s : Session α} (h : Inv s) (hdefined : s.undefined = false) : Refines s where
  defined := hdefined
  agrees i := (h i).agrees
  throws i env c b hallowed hcall := by
    by_cases hmeaning : CallDefined env (s.buffers i) c
    · obtain ⟨b', threw, hcall', -, hthrew⟩ := bufferCall_spec env (h i) hallowed hmeaning
      rw [hcall] at hcall'
      cases hcall'
      exact hthrew rfl
    · obtain ⟨e, herror⟩ := bufferCall_undefined env (h i) hmeaning
      rw [hcall] at herror
      cases herror

/-- A call on one buffer leaves the others as they are. -/
theorem Inv.update {s : Session α} (h : Inv s) {i : Nat} (hcells : Cells b (xs.map .live)) (j : Nat) :
    Cells (Function.update s.buffers i b j) ((Function.update s.deques i xs j).map .live) := by
  by_cases heq : j = i
  · subst heq
    rw [Function.update_self, Function.update_self]
    exact hcells
  · rw [Function.update_of_ne heq, Function.update_of_ne heq]
    exact h j

/-- A call keeps the invariant, and it is defined exactly under its condition. -/
theorem Inv.call {s t : Session α} {env : Env} {i : Nat} {c : Call (Arg α)} (h : Inv s)
    (hstep : s.step (.call env i c) = some t) :
    Inv t ∧ (t.undefined = false ↔ EventDefined s (.call env i c)) := by
  rw [Session.step] at hstep
  by_cases hundef : s.undefined = true
  · rw [if_pos hundef] at hstep
    cases hstep
  · rw [if_neg hundef] at hstep
    split at hstep
    · rename_i hallowed
      by_cases hdefined : EventDefined s (.call env i c)
      · obtain ⟨b, threw, hcall, hcells, -⟩ := bufferCall_spec env (h i) hallowed hdefined
        rw [hcall] at hstep
        cases hstep
        refine ⟨fun j => ?_, fun _ => hdefined, fun _ => by simpa using hundef⟩
        have hupdate := h.update hcells (i := i) j
        cases threw with
        | false => exact hupdate
        | true => rwa [if_pos rfl, Function.update_eq_self] at hupdate
      · obtain ⟨e, herror⟩ := bufferCall_undefined env (h i) hdefined
        rw [herror] at hstep
        cases hstep
        exact ⟨h, (fun hfalse => by cases hfalse), fun hmeaning => absurd hmeaning hdefined⟩
    · cases hstep

/-- A move takes the elements along. -/
theorem Inv.move {s t : Session α} {i j : Nat} (h : Inv s) (hstep : s.step (.move i j) = some t) :
    Inv t ∧ t.undefined = false := by
  rw [Session.step] at hstep
  by_cases hundef : s.undefined = true
  · rw [if_pos hundef] at hstep
    cases hstep
  · have hdefined : s.undefined = false := by simpa using hundef
    rw [if_neg hundef] at hstep
    split at hstep
    · cases hstep
      exact ⟨h, hdefined⟩
    · cases hstep
      have hmoved : Inv ⟨Function.update s.buffers i (s.buffers j),
          Function.update s.deques i (s.deques j), s.undefined⟩ := fun k => h.update (h j) k
      have hempty : Cells (CircularBuffer.create : CircularBuffer α) (([] : List α).map .live) :=
        Cells.create
      exact ⟨fun k => hmoved.update hempty k, hdefined⟩

/-- A step keeps the invariant, and it is defined exactly under its condition. -/
theorem Inv.step {s t : Session α} {e : Event α} (h : Inv s) (hstep : s.step e = some t) :
    Inv t ∧ (t.undefined = false ↔ EventDefined s e) := by
  cases e with
  | call env i c => exact h.call hstep
  | move i j =>
    obtain ⟨hinv, hdefined⟩ := h.move hstep
    exact ⟨hinv, fun _ => trivial, fun _ => hdefined⟩

/-- Any number of circular buffers under any calls are the deques of the same calls, exactly as long
as no `reserve` and no push leaves the language. -/
theorem circularBuffer_refines_iff (es : List (Event α)) :
    Always Session.step Refines Session.create es ↔
      Guarded Session.step EventDefined Session.create es :=
  always_iff_guarded Inv (fun _ _ _ hs _ hstep => (hs.step hstep).1)
    (fun _ _ _ hs _ hstep =>
      ⟨fun hrefines => (hs.step hstep).2.mp hrefines.defined,
        fun hdefined => (hs.step hstep).1.refines ((hs.step hstep).2.mpr hdefined)⟩)
    Inv.create (Inv.create.refines rfl) es

/-- `reserve(1)` on a buffer without storage, and `push_back(front())` on a buffer of one element. -/
theorem not_refines_reserve_push :
    ¬ Always Session.step Refines (Session.create : Session Nat)
        [.call ⟨false, true, none, false⟩ 0 (.reserve 1)] ∧
      ¬ Always Session.step Refines (Session.create : Session Nat)
        [.call ⟨false, true, none, false⟩ 0 (.pushBack (.value 1)),
          .call ⟨false, true, none, false⟩ 0 (.pushBack (.element 0))] := by
  constructor
  · intro h
    have hnext := (h.2 _ rfl).1
    cases hnext
  · intro h
    have hnext := ((h.2 _ rfl).2 _ rfl).1
    cases hnext

end Netstar.Proofs.Core.CircularBuffer
