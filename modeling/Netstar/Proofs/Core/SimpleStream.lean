import Netstar.Lib.Result
import Netstar.Spec.Core.SimpleStream

/-!
# `Netstar.Proofs.Core.SimpleStream`: a message in one buffer and in fragments

`MemoryInputStream.remaining` is what a stream has left. `apply_spec` states every operation in terms
of it, so that the cut of a message does not matter (`fragmentLoop_spec`). The one exception is
`copy_to`: it leaves the bytes in a `simple` stream and takes them from a `fragmented` one. So the
streams of a message stay the same through `copy_to` only if there was nothing left to copy, and
`twinStreams_same_iff` is the statement about runs.
-/

set_option autoImplicit false

namespace Netstar.Proofs.Core.SimpleStream

open Netstar.Lib
open Netstar.Spec.Core

/-! ### The loop over the fragments -/

open FragmentedStream (fragmentLoop)

/-- Nothing is left to visit. -/
theorem fragmentLoop_zero (it : List (List UInt8)) (current : List UInt8) :
    fragmentLoop it current 0 = .ok (it, current, []) := by
  rw [fragmentLoop.eq_def, if_pos rfl]

/-- The next fragment is fetched. -/
theorem fragmentLoop_fetch {size : Nat} (hsize : size ≠ 0) (fragment : List UInt8)
    (it : List (List UInt8)) :
    fragmentLoop (fragment :: it) [] size = (do
      let (it', current', views) ←
        fragmentLoop it (fragment.drop (min fragment.length size)) (size - min fragment.length size)
      return (it', current', fragment.take (min fragment.length size) :: views)) := by
  rw [fragmentLoop.eq_def, if_neg hsize, dif_pos rfl]

/-- The current fragment is used. -/
theorem fragmentLoop_current {size : Nat} (hsize : size ≠ 0) (it : List (List UInt8))
    {current : List UInt8} (hcurrent : current ≠ []) :
    fragmentLoop it current size = (do
      let (it', current', views) ←
        fragmentLoop it (current.drop (min current.length size)) (size - min current.length size)
      return (it', current', current.take (min current.length size) :: views)) := by
  rw [fragmentLoop.eq_def, if_neg hsize, dif_neg hcurrent]

/-- What one round takes from the front, and what the rounds after it take. -/
theorem round_take (front rest : List UInt8) (size : Nat) :
    front.take (min front.length size) ++
        (front.drop (min front.length size) ++ rest).take (size - min front.length size)
      = (front ++ rest).take size := by
  rcases Nat.le_total front.length size with h | h
  · rw [Nat.min_eq_left h, List.take_length, List.drop_length, List.nil_append, List.take_append,
      List.take_of_length_le h]
  · rw [Nat.min_eq_right h, Nat.sub_self, List.take_zero, List.append_nil,
      List.take_append_of_le_length h]

/-- A round takes from the front and goes on behind it. -/
theorem round_drop (front rest : List UInt8) (size : Nat) :
    (front.drop (min front.length size) ++ rest).drop (size - min front.length size)
      = (front ++ rest).drop size := by
  rcases Nat.le_total front.length size with h | h
  · rw [Nat.min_eq_left h, List.drop_length, List.nil_append, List.drop_append,
      List.drop_of_length_le h, List.nil_append]
  · rw [Nat.min_eq_right h, Nat.sub_self, List.drop_zero, List.drop_append_of_le_length h]

/-- The loop takes its bytes from the front, wherever the fragments end. -/
theorem fragmentLoop_spec (it : List (List UInt8)) (current : List UInt8) (size : Nat) :
    size ≤ (current ++ it.flatten).length →
    ∃ it' current' views, fragmentLoop it current size = .ok (it', current', views) ∧
      views.flatten = (current ++ it.flatten).take size ∧
      current' ++ it'.flatten = (current ++ it.flatten).drop size := by
  induction it, current, size using FragmentedStream.fragmentLoop.induct with
  | case1 it current => exact fun _ => ⟨it, current, [], fragmentLoop_zero it current, rfl, rfl⟩
  | case2 size hsize =>
    -- The fragments are spent, so nothing was asked for.
    exact fun h => absurd (Nat.eq_zero_of_le_zero h) hsize
  | case3 size hsize fragment it thisSize ih =>
    intro h
    obtain ⟨it', current', views, hloop, htake, hdrop⟩ := ih (by
      simp only [List.nil_append, List.flatten_cons, List.length_append] at h
      simp only [thisSize, List.length_append, List.length_drop]
      omega)
    refine ⟨it', current', fragment.take thisSize :: views, ?_, ?_, ?_⟩
    · rw [fragmentLoop_fetch hsize, hloop]
      rfl
    · rw [List.flatten_cons, htake]
      exact round_take fragment it.flatten size
    · rw [hdrop]
      exact round_drop fragment it.flatten size
  | case4 it current size hsize hcurrent thisSize ih =>
    intro h
    obtain ⟨it', current', views, hloop, htake, hdrop⟩ := ih (by
      simp only [List.length_append] at h
      simp only [thisSize, List.length_append, List.length_drop]
      omega)
    refine ⟨it', current', current.take thisSize :: views, ?_, ?_, ?_⟩
    · rw [fragmentLoop_current hsize it hcurrent, hloop]
      rfl
    · rw [List.flatten_cons, htake]
      exact round_take current it.flatten size
    · rw [hdrop]
      exact round_drop current it.flatten size

/-! ### One operation -/

open MemoryInputStream (remaining)

/-- The fragments hold all the bytes that the stream has left. -/
def Covered (s : FragmentedStream) : Prop := s.size ≤ (s.current ++ s.it.flatten).length

/-- `size` counts the bytes that remain. -/
theorem length_remaining {s : FragmentedStream} (h : Covered s) :
    (remaining (.fragmented s)).length = s.size := by
  rw [remaining, List.length_take]
  exact Nat.min_eq_left h

/-- `for_each_fragment` takes its bytes from those that are left. -/
theorem forEachFragment_spec {s : FragmentedStream} (h : Covered s) {size : Nat}
    (hsize : size ≤ s.size) :
    ∃ s' views, s.forEachFragment size = .ok (s', views) ∧ Covered s' ∧
      views.flatten = (remaining (.fragmented s)).take size ∧
      remaining (.fragmented s') = (remaining (.fragmented s)).drop size := by
  obtain ⟨it', current', views, hloop, htake, hdrop⟩ :=
    fragmentLoop_spec s.it s.current size (Nat.le_trans hsize h)
  refine ⟨⟨it', current', s.size - size⟩, views, ?_, ?_, ?_, ?_⟩
  · rw [FragmentedStream.forEachFragment, if_neg (Nat.not_lt.mpr hsize), hloop]
    rfl
  · show s.size - size ≤ (current' ++ it'.flatten).length
    rw [hdrop, List.length_drop]
    exact Nat.sub_le_sub_right h size
  · rw [htake, remaining, List.take_take, Nat.min_eq_left hsize]
  · rw [remaining, remaining, hdrop, List.drop_take]

/-- More bytes than there are cannot be visited. -/
theorem forEachFragment_outOfRange {s : FragmentedStream} {size : Nat} (h : s.size < size) :
    s.forEachFragment size = .error .outOfRange := by
  rw [FragmentedStream.forEachFragment, if_pos h]

/-- The result of an operation as it is seen from the bytes: those that are left, those of the stream
that it makes, and what the caller sees. -/
abbrev ByteEffect := List UInt8 × Option (List UInt8) × MemoryStreamResult

/-- An operation on the bytes that are left. A `copy_to` leaves them. -/
def byteApply (bytes : List UInt8) : MemoryStreamOp → Except UnderflowFault ByteEffect
  | .skip size =>
    if bytes.length < size then .error .outOfRange else .ok (bytes.drop size, none, .done)
  | .readSubstream size =>
    if bytes.length < size then .error .outOfRange
    else .ok (bytes.drop size, some (bytes.take size), .done)
  | .read size =>
    if bytes.length < size then .error .outOfRange
    else .ok (bytes.drop size, none, .bytes (bytes.take size))
  | .copyTo => .ok (bytes, none, .bytes bytes)
  | .size => .ok (bytes, none, .size bytes.length)
  | .copy => .ok (bytes, some bytes, .done)

/-- The effect on a stream, seen from the bytes. -/
def bytesOf (e : MemoryStreamEffect) : ByteEffect :=
  (remaining e.stream, e.created.map remaining, e.result)

/-- The simple stream is the list of its bytes. -/
theorem simple_apply (bytes : List UInt8) (op : MemoryStreamOp) :
    ((MemoryInputStream.simple bytes).apply op).map bytesOf = byteApply bytes op := by
  cases op with
  | skip size =>
    rw [MemoryInputStream.apply, SimpleStream.skip, byteApply]
    split <;> rfl
  | readSubstream size =>
    rw [MemoryInputStream.apply, SimpleStream.readSubstream, SimpleStream.skip, byteApply]
    split <;> rfl
  | read size =>
    rw [MemoryInputStream.apply, SimpleStream.read, SimpleStream.skip, byteApply]
    split <;> rfl
  | copyTo => rfl
  | size => rfl
  | copy => rfl

/-- `copy_to` writes what a stream in fragments has left, and leaves nothing. -/
theorem fragmented_copyTo {s : FragmentedStream} (h : Covered s) :
    ((MemoryInputStream.fragmented s).apply .copyTo).map bytesOf
      = .ok ([], none, .bytes (remaining (.fragmented s))) := by
  obtain ⟨s', views, hloop, -, htake, hdrop⟩ := forEachFragment_spec h (Nat.le_refl s.size)
  rw [← length_remaining h, List.take_length] at htake
  rw [← length_remaining h, List.drop_length] at hdrop
  rw [MemoryInputStream.apply, FragmentedStream.copyTo, hloop]
  show Except.ok (remaining (.fragmented s'), none, MemoryStreamResult.bytes views.flatten) = _
  rw [hdrop, htake]

/-- The operations on a stream in fragments, when a `copy_to` finds nothing to copy. -/
theorem fragmented_apply {s : FragmentedStream} (h : Covered s) {op : MemoryStreamOp}
    (hop : op = .copyTo → remaining (.fragmented s) = []) :
    ((MemoryInputStream.fragmented s).apply op).map bytesOf
      = byteApply (remaining (.fragmented s)) op := by
  have hlength := length_remaining h
  cases op with
  | skip size =>
    rw [MemoryInputStream.apply, FragmentedStream.skip, byteApply, hlength]
    rcases Nat.lt_or_ge s.size size with hlt | hge
    · rw [forEachFragment_outOfRange hlt, if_pos hlt]
      rfl
    · obtain ⟨s', views, hloop, -, -, hdrop⟩ := forEachFragment_spec h hge
      rw [hloop, if_neg (Nat.not_lt.mpr hge), ← hdrop]
      rfl
  | readSubstream size =>
    rw [MemoryInputStream.apply, FragmentedStream.readSubstream, byteApply, hlength]
    rcases Nat.lt_or_ge s.size size with hlt | hge
    · rw [if_pos hlt, if_pos hlt]
      rfl
    · obtain ⟨s', views, hloop, -, -, hdrop⟩ := forEachFragment_spec h hge
      have htake : remaining (.fragmented ⟨s.it, s.current, size⟩)
          = (remaining (.fragmented s)).take size := by
        rw [remaining, remaining, List.take_take, Nat.min_eq_left hge]
      rw [if_neg (Nat.not_lt.mpr hge), if_neg (Nat.not_lt.mpr hge), ← hdrop, ← htake,
        FragmentedStream.skip, hloop]
      rfl
  | read size =>
    rw [MemoryInputStream.apply, FragmentedStream.read, byteApply, hlength]
    rcases Nat.lt_or_ge s.size size with hlt | hge
    · rw [forEachFragment_outOfRange hlt, if_pos hlt]
      rfl
    · obtain ⟨s', views, hloop, -, htake, hdrop⟩ := forEachFragment_spec h hge
      rw [hloop, if_neg (Nat.not_lt.mpr hge), ← hdrop, ← htake]
      rfl
  | copyTo =>
    rw [fragmented_copyTo h, hop rfl]
    rfl
  | size =>
    rw [byteApply, hlength]
    rfl
  | copy => rfl

/-! ### The two kinds of streams -/

/-- A stream in one buffer. -/
def IsWhole (s : MemoryInputStream) : Prop := ∃ bytes, s = .simple bytes

/-- A stream in fragments that hold its bytes. -/
def IsCut (s : MemoryInputStream) : Prop := ∃ f, s = .fragmented f ∧ Covered f

/-- The streams of an effect satisfy `Q`. -/
def EffectSat (Q : MemoryInputStream → Prop) (e : MemoryStreamEffect) : Prop :=
  Q e.stream ∧ ∀ c ∈ e.created, Q c

/-- An operation on a simple stream makes simple streams. -/
theorem isWhole_apply {s : MemoryInputStream} (h : IsWhole s) {op : MemoryStreamOp}
    {e : MemoryStreamEffect} (happly : s.apply op = .ok e) : EffectSat IsWhole e := by
  obtain ⟨bytes, rfl⟩ := h
  cases op with
  | skip size =>
    obtain ⟨s', -, h⟩ := bind_eq_ok.mp happly
    cases h
    exact ⟨⟨s', rfl⟩, by simp⟩
  | readSubstream size =>
    obtain ⟨⟨s', c⟩, -, h⟩ := bind_eq_ok.mp happly
    cases h
    exact ⟨⟨s', rfl⟩, by simp [IsWhole]⟩
  | read size =>
    obtain ⟨⟨s', bytes⟩, -, h⟩ := bind_eq_ok.mp happly
    cases h
    exact ⟨⟨s', rfl⟩, by simp⟩
  | copyTo =>
    cases happly
    exact ⟨⟨bytes, rfl⟩, by simp⟩
  | size =>
    cases happly
    exact ⟨⟨bytes, rfl⟩, by simp⟩
  | copy =>
    cases happly
    exact ⟨⟨bytes, rfl⟩, by simp [IsWhole]⟩

/-- What `for_each_fragment` leaves is covered by its fragments. -/
theorem covered_forEachFragment {s s' : FragmentedStream} (h : Covered s) {size : Nat}
    {views : List (List UInt8)} (hloop : s.forEachFragment size = .ok (s', views)) :
    Covered s' := by
  rcases Nat.lt_or_ge s.size size with hlt | hge
  · rw [forEachFragment_outOfRange hlt] at hloop
    cases hloop
  · obtain ⟨t, views', hloop', hcovered, -⟩ := forEachFragment_spec h hge
    rw [hloop'] at hloop
    cases hloop
    exact hcovered

/-- A skip keeps the size in step with the bytes. -/
theorem covered_skip {s s' : FragmentedStream} (h : Covered s) {size : Nat}
    (hskip : s.skip size = .ok s') : Covered s' := by
  obtain ⟨⟨t, views⟩, hloop, ht⟩ := bind_eq_ok.mp hskip
  cases ht
  exact covered_forEachFragment h hloop

/-- An operation on a fragmented stream makes fragmented streams. -/
theorem isCut_apply {s : MemoryInputStream} (h : IsCut s) {op : MemoryStreamOp}
    {e : MemoryStreamEffect} (happly : s.apply op = .ok e) : EffectSat IsCut e := by
  obtain ⟨f, rfl, hf⟩ := h
  cases op with
  | skip size =>
    obtain ⟨f', hskip, h⟩ := bind_eq_ok.mp happly
    cases h
    exact ⟨⟨f', rfl, covered_skip hf hskip⟩, by simp⟩
  | readSubstream size =>
    obtain ⟨⟨f', c⟩, hread, h⟩ := bind_eq_ok.mp happly
    cases h
    rw [FragmentedStream.readSubstream] at hread
    split at hread
    · cases hread
    · -- The substream is covered by the same fragments, since it is no longer than the rest.
      rename_i hge
      obtain ⟨t, hskip, ht⟩ := bind_eq_ok.mp hread
      cases ht
      refine ⟨⟨f', rfl, covered_skip hf hskip⟩, fun c hc => ?_⟩
      obtain rfl := Option.mem_some_iff.mp hc
      exact ⟨_, rfl, Nat.le_trans (Nat.not_lt.mp hge) hf⟩
  | read size =>
    obtain ⟨⟨f', bytes⟩, hread, h⟩ := bind_eq_ok.mp happly
    obtain ⟨⟨t, views⟩, hloop, ht⟩ := bind_eq_ok.mp hread
    cases ht
    cases h
    exact ⟨⟨f', rfl, covered_forEachFragment hf hloop⟩, by simp⟩
  | copyTo =>
    obtain ⟨⟨f', bytes⟩, hread, h⟩ := bind_eq_ok.mp happly
    obtain ⟨⟨t, views⟩, hloop, ht⟩ := bind_eq_ok.mp hread
    cases ht
    cases h
    exact ⟨⟨f', rfl, covered_forEachFragment hf hloop⟩, by simp⟩
  | size =>
    cases happly
    exact ⟨⟨f, rfl, hf⟩, by simp⟩
  | copy =>
    cases happly
    refine ⟨⟨f, rfl, hf⟩, fun c hc => ?_⟩
    obtain rfl := Option.mem_some_iff.mp hc
    exact ⟨f, rfl, hf⟩

/-! ### Tables of streams -/

/-- A property that every operation keeps stays with the streams of a table. -/
theorem tableApply_sat {Q : MemoryInputStream → Prop}
    (hQ : ∀ s op e, Q s → s.apply op = .ok e → EffectSat Q e) {table : List MemoryInputStream}
    (h : ∀ s ∈ table, Q s) {i : Nat} {op : MemoryStreamOp}
    {r : List MemoryInputStream × Except UnderflowFault MemoryStreamResult}
    (hr : tableApply table i op = some r) : ∀ s ∈ r.1, Q s := by
  obtain ⟨s, hs, rfl⟩ := Option.map_eq_some_iff.mp hr
  have hQs := h s (List.mem_of_getElem? hs)
  cases happly : s.apply op with
  | error fault => exact h
  | ok e =>
    obtain ⟨hstream, hcreated⟩ := hQ s op e hQs happly
    intro c hc
    rcases List.mem_append.mp hc with hc | hc
    · rcases List.mem_or_eq_of_mem_set hc with hc | rfl
      · exact h c hc
      · exact hstream
    · exact hcreated c (Option.mem_toList.mp hc)

/-- The bytes of a table after an operation, when the bytes of the stream do as `r` says. -/
def tableEffect (table : List (List UInt8)) (i : Nat) :
    Except UnderflowFault ByteEffect → List (List UInt8) × Except UnderflowFault MemoryStreamResult
  | .ok (bytes, created, result) => (table.set i bytes ++ created.toList, .ok result)
  | .error fault => (table, .error fault)

/-- The bytes of the streams of a table. -/
abbrev bytesTable (table : List MemoryInputStream) : List (List UInt8) := table.map remaining

/-- An operation on a table, seen from the bytes. -/
theorem tableApply_bytes {table : List MemoryInputStream} {i : Nat} {op : MemoryStreamOp}
    {s : MemoryInputStream} (hs : table[i]? = some s)
    {r : List MemoryInputStream × Except UnderflowFault MemoryStreamResult}
    (hr : tableApply table i op = some r) :
    (bytesTable r.1, r.2) = tableEffect (bytesTable table) i ((s.apply op).map bytesOf) := by
  rw [tableApply, hs] at hr
  cases hr
  dsimp only
  cases s.apply op with
  | error fault => rfl
  | ok e =>
    show (bytesTable (table.set i e.stream ++ e.created.toList), _) =
      ((bytesTable table).set i (remaining e.stream) ++ (e.created.map remaining).toList, _)
    rw [bytesTable, List.map_append, List.map_set]
    cases e.created <;> rfl

/-! ### Runs -/

/-- The two sides of a message do not differ: the last operation had the same result on both, a
`copy_to` wrote exactly the bytes that were left, and the streams have the same bytes left. -/
structure Same (t : TwinStreams) : Prop where
  results : t.wholeResult = t.cutResult
  copied : ∀ bytes ∈ t.copied, t.wholeResult = .ok (.bytes bytes) ∧ t.cutResult = .ok (.bytes bytes)
  bytes : bytesTable t.whole = bytesTable t.cut

/-- The invariant of the two sides. -/
structure TwinInv (t : TwinStreams) : Prop where
  same : Same t
  whole : ∀ s ∈ t.whole, IsWhole s
  cut : ∀ s ∈ t.cut, IsCut s

/-- A `copy_to` is called on a stream that has no bytes left. -/
def CopiesNothing (t : TwinStreams) (c : Nat × MemoryStreamOp) : Prop :=
  c.2 = .copyTo → ∀ s, t.whole[c.1]? = some s → s.remaining = []

/-- The two streams of a message start together. -/
theorem twinInv_create (m : CutMessage) : TwinInv (TwinStreams.create m) where
  same := ⟨rfl, by simp [TwinStreams.create], rfl⟩
  whole := by
    intro s hs
    obtain rfl := List.mem_singleton.mp hs
    exact ⟨_, rfl⟩
  cut := by
    intro s hs
    obtain rfl := List.mem_singleton.mp hs
    exact ⟨_, rfl, m.size_le⟩

/-- The parts of a step: the streams that it is for, which have the same bytes left, and what becomes
of the two tables. -/
theorem TwinInv.step_cases {t u : TwinStreams} (h : TwinInv t) {c : Nat × MemoryStreamOp}
    (hstep : t.step c = some u) :
    ∃ bytes f, t.whole[c.1]? = some (.simple bytes) ∧ Covered f ∧
      remaining (.fragmented f) = bytes ∧
      (bytesTable u.whole, u.wholeResult)
        = tableEffect (bytesTable t.whole) c.1 (byteApply bytes c.2) ∧
      (bytesTable u.cut, u.cutResult) = tableEffect (bytesTable t.whole) c.1
        (((MemoryInputStream.fragmented f).apply c.2).map bytesOf) ∧
      u.copied = (if c.2 = .copyTo then some bytes else none) ∧
      (∀ s ∈ u.whole, IsWhole s) ∧ ∀ s ∈ u.cut, IsCut s := by
  obtain ⟨i, op⟩ := c
  obtain ⟨⟨whole, wholeResult⟩, hwhole, hrest⟩ := Option.bind_eq_some_iff.mp hstep
  obtain ⟨⟨cut, cutResult⟩, hcut, hu⟩ := Option.bind_eq_some_iff.mp hrest
  cases hu
  obtain ⟨s, hs, -⟩ := Option.map_eq_some_iff.mp hwhole
  obtain ⟨s', hs', -⟩ := Option.map_eq_some_iff.mp hcut
  obtain ⟨bytes, rfl⟩ := h.whole s (List.mem_of_getElem? hs)
  obtain ⟨f, rfl, hf⟩ := h.cut s' (List.mem_of_getElem? hs')
  have hbytes : remaining (.fragmented f) = bytes := by
    have heq := congrArg (·[i]?) h.same.bytes
    simp only [bytesTable, List.getElem?_map, hs, hs', Option.map_some, Option.some.injEq] at heq
    exact heq.symm
  refine ⟨bytes, f, hs, hf, hbytes, ?_, ?_, ?_,
    tableApply_sat (fun _ _ _ hs happly => isWhole_apply hs happly) h.whole hwhole,
    tableApply_sat (fun _ _ _ hs happly => isCut_apply hs happly) h.cut hcut⟩
  · rw [← simple_apply]
    exact tableApply_bytes hs hwhole
  · rw [h.same.bytes]
    exact tableApply_bytes hs' hcut
  · simp only [hs, Option.map_some]
    rfl

/-- A step keeps the two sides the same when its `copy_to` finds nothing to copy. -/
theorem TwinInv.step {t u : TwinStreams} (h : TwinInv t) {c : Nat × MemoryStreamOp}
    (hok : CopiesNothing t c) (hstep : t.step c = some u) : TwinInv u := by
  obtain ⟨bytes, f, hs, hf, hbytes, hwhole, hcut, hcopied, hsatWhole, hsatCut⟩ := h.step_cases hstep
  have hnil : c.2 = .copyTo → remaining (.fragmented f) = [] := by
    intro hop
    rw [hbytes]
    exact hok hop _ hs
  rw [fragmented_apply hf hnil, hbytes, ← hwhole] at hcut
  obtain ⟨htable, hresult⟩ := Prod.mk.injEq .. ▸ hcut
  refine ⟨⟨hresult.symm, fun b hb => ?_, htable.symm⟩, hsatWhole, hsatCut⟩
  rw [hcopied] at hb
  split at hb
  · rename_i hop
    obtain rfl := Option.mem_some_iff.mp hb
    rw [hop] at hwhole
    have hwritten : u.wholeResult = .ok (.bytes bytes) := congrArg Prod.snd hwhole
    exact ⟨hwritten, hresult.trans hwritten⟩
  · cases hb

/-- After a `copy_to` the stream in fragments has nothing left, and the stream in one buffer has what
it had. -/
theorem TwinInv.copiesNothing {t u : TwinStreams} (h : TwinInv t) {c : Nat × MemoryStreamOp}
    (hstep : t.step c = some u) (hsame : Same u) : CopiesNothing t c := by
  intro hop s hs
  obtain ⟨bytes, f, hs', hf, hbytes, hwhole, hcut, -⟩ := h.step_cases hstep
  rw [hs'] at hs
  cases hs
  rw [hop] at hwhole hcut
  rw [fragmented_copyTo hf] at hcut
  have hwholeTable : bytesTable u.whole = (bytesTable t.whole).set c.1 bytes ++ [] :=
    congrArg Prod.fst hwhole
  have hcutTable : bytesTable u.cut = (bytesTable t.whole).set c.1 [] ++ [] :=
    congrArg Prod.fst hcut
  have heq := hsame.bytes
  rw [hwholeTable, hcutTable, List.append_nil, List.append_nil] at heq
  have hlt : c.1 < (bytesTable t.whole).length := by
    rw [List.length_map]
    exact (List.getElem?_eq_some_iff.mp hs').1
  have hget := congrArg (·[c.1]?) heq
  rw [List.getElem?_set_self hlt, List.getElem?_set_self hlt] at hget
  exact Option.some.inj hget

/-- A message in one buffer and the same message in fragments do not differ in any state of a run
exactly when each `copy_to` of the run is called on a stream that has no bytes left. -/
theorem twinStreams_same_iff (m : CutMessage) (cs : List (Nat × MemoryStreamOp)) :
    Always TwinStreams.step Same (TwinStreams.create m) cs ↔
      Guarded TwinStreams.step CopiesNothing (TwinStreams.create m) cs :=
  always_iff_guarded_of_inv TwinInv (fun _ h => h.same) (fun _ _ _ h hok hstep => h.step hok hstep)
    (fun _ _ _ h hstep hsame => h.copiesNothing hstep hsame) (twinInv_create m) cs

/-- Two fragments of a byte each are copied, and then read. -/
theorem not_same_copied_twice :
    ¬ Always TwinStreams.step Same (TwinStreams.create ⟨[[1], [2]], 2, by decide⟩)
      [(0, .copyTo), (0, .size)] := by
  intro h
  obtain ⟨u, hu⟩ : ∃ u, (TwinStreams.create ⟨[[1], [2]], 2, by decide⟩).step (0, .copyTo) = some u :=
    ⟨_, rfl⟩
  have hnothing := (twinInv_create _).copiesNothing hu (h.2 u hu).head
  exact absurd (hnothing rfl _ rfl) (by decide)

end Netstar.Proofs.Core.SimpleStream
