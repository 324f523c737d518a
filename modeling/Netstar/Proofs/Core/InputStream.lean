import Netstar.Spec.Core.InputStream

/-!
# `Netstar.Proofs.Core.InputStream`: the position in the stream

`bytes` is what a stream has still to give: its buffer, and the buffers of the source. Each call takes
the front of it, however it is cut into buffers. `read_exactly` and `skip` depend on `bytes` only.
-/

set_option autoImplicit false

namespace Netstar.Proofs.Core.InputStream

open Netstar.Lib
open Netstar.Spec.Core
open Netstar.Spec.Core.InputStream

variable {α : Type}

/-- The bytes of buffers. -/
def flat (fd : List (SourceBuf α)) : List α := (fd.map Subtype.val).flatten

/-- The first buffer, and the bytes behind it. -/
theorem flat_cons (b : SourceBuf α) (fd : List (SourceBuf α)) : flat (b :: fd) = b.1 ++ flat fd := rfl

/-- What the stream has still to give. -/
def bytes (s : InputStream α) : List α := s.buf ++ flat s.fd

/-- The end of the stream is known only when there is nothing left. -/
def Ends (s : InputStream α) : Prop := s.eof = true → bytes s = []

/-! ### The calls -/

/-- The result and the stream after a `read_exactly`, when `before` is what there was. -/
structure ReadsExactly (eof : Bool) (n : Nat) (before : List α) (r : List α × InputStream α) :
    Prop where
  result : r.1 = if n ≤ before.length then before.take n else []
  rest : bytes r.2 = if n ≤ before.length then before.drop n else []
  ends : r.2.eof = eof ∨ bytes r.2 = []

/-- Enough bytes. -/
theorem ReadsExactly.enough {eof : Bool} {n : Nat} {before out buf : List α}
    {fd : List (SourceBuf α)} (hlen : out.length = n) (hbefore : before = out ++ (buf ++ flat fd)) :
    ReadsExactly eof n before (out, ⟨fd, buf, eof⟩) := by
  subst hbefore hlen
  have hle : out.length ≤ (out ++ (buf ++ flat fd)).length := by
    rw [List.length_append]
    omega
  refine ⟨?_, ?_, .inl rfl⟩
  · rw [if_pos hle, List.take_left]
  · rw [if_pos hle, List.drop_left]
    rfl

/-- The source has ended. -/
theorem ReadsExactly.short {eof eof' : Bool} {n : Nat} {before : List α} (h : before.length < n) :
    ReadsExactly eof n before (([] : List α), ⟨[], [], eof'⟩) := by
  refine ⟨?_, ?_, .inr rfl⟩
  · rw [if_neg (by omega)]
  · rw [if_neg (by omega)]
    rfl

/-- A part of the buffer can be split off. -/
theorem take_append_rest (n : Nat) (buf rest : List α) :
    buf ++ rest = buf.take n ++ (buf.drop n ++ rest) := by
  rw [← List.append_assoc, List.take_append_drop]

/-- With too few bytes the whole buffer is copied. -/
theorem take_short {n : Nat} {buf out : List α} (hout : out.length ≤ n)
    (h : (out ++ buf.take (min (n - out.length) buf.length)).length ≠ n) :
    min (n - out.length) buf.length = buf.length ∧ (out ++ buf).length < n := by
  rw [List.length_append, List.length_take] at h
  rw [List.length_append]
  omega

/-- `read_exactly_part` reads the bytes of the buffers in order, up to `n`. -/
theorem readExactlyPart_spec {n : Nat} {fd : List (SourceBuf α)} {buf out : List α} {eof : Bool}
    (hout : out.length ≤ n) :
    ReadsExactly eof n (out ++ (buf ++ flat fd)) (readExactlyPart eof n fd buf out) := by
  fun_induction readExactlyPart eof n fd buf out with
  | case1 fd buf out now out' buf' hlen =>
    apply ReadsExactly.enough hlen
    show _ = (out ++ buf.take now) ++ (buf.drop now ++ flat fd)
    rw [List.append_assoc, ← take_append_rest]
  | case2 buf out now out' buf' hlen =>
    -- the source has ended
    obtain ⟨hnow, hshort⟩ := take_short hout hlen
    have hnil : buf' = [] := by
      show buf.drop (min (n - out.length) buf.length) = []
      rw [hnow, List.drop_length]
    rw [hnil]
    apply ReadsExactly.short
    rw [flat, List.map_nil, List.flatten_nil, List.append_nil]
    exact hshort
  | case3 buf out now out' hlen b fd ih =>
    obtain ⟨hnow, hshort⟩ := take_short hout hlen
    have hall : out' = out ++ buf := by
      show out ++ buf.take (min (n - out.length) buf.length) = out ++ buf
      rw [hnow, List.take_length]
    have hrest := ih (by rw [hall]; exact Nat.le_of_lt hshort)
    rw [flat_cons, ← List.append_assoc, ← hall]
    exact hrest

/-- `read_exactly` returns `n` bytes, or none when there are fewer. -/
theorem readExactly_spec {n : Nat} {fd : List (SourceBuf α)} {buf : List α} {eof : Bool} :
    ReadsExactly eof n (buf ++ flat fd) (readExactly eof n fd buf) := by
  fun_induction readExactly eof n fd buf with
  | case1 fd buf hlen => exact ReadsExactly.enough hlen rfl
  | case2 fd buf hne hgt =>
    apply ReadsExactly.enough
    · rw [List.length_take]
      omega
    · exact take_append_rest n buf (flat fd)
  | case3 buf hne hle hempty =>
    rw [List.length_eq_zero_iff.mp hempty]
    apply ReadsExactly.short
    rw [hempty] at hne
    exact Nat.pos_of_ne_zero (Ne.symm hne)
  | case4 buf hne hle hempty b fd ih =>
    rw [List.length_eq_zero_iff.mp hempty]
    exact ih
  | case5 fd buf hne hle hfull => exact @readExactlyPart_spec _ n fd buf [] eof (Nat.zero_le n)

/-- Enough bytes in front of the others. -/
theorem readExactly_front {s : InputStream α} {n : Nat} {front rest : List α} (h : Ends s)
    (hbytes : bytes s = front ++ rest) (hlen : front.length = n) :
    ∃ s', readExactly s.eof n s.fd s.buf = (front, s') ∧ bytes s' = rest ∧ Ends s' := by
  have hread : ReadsExactly s.eof n (bytes s) (readExactly s.eof n s.fd s.buf) := readExactly_spec
  have hle : n ≤ (bytes s).length := by
    rw [hbytes, List.length_append]
    omega
  have hresult := hread.result
  have hrest := hread.rest
  rw [if_pos hle, hbytes, List.take_left' hlen] at hresult
  rw [if_pos hle, hbytes, List.drop_left' hlen] at hrest
  refine ⟨(readExactly s.eof n s.fd s.buf).2, ?_, hrest, ?_⟩
  · rw [← hresult]
  · intro htrue
    rcases hread.ends with heq | hnil
    · have hnil := h (heq ▸ htrue)
      rw [hbytes] at hnil
      rw [hrest]
      exact (List.append_eq_nil_iff.mp hnil).2
    · exact hnil

/-- Too few bytes. -/
theorem readExactly_short {s : InputStream α} {n : Nat} (hlt : (bytes s).length < n) :
    ∃ s', readExactly s.eof n s.fd s.buf = ([], s') := by
  have hread : ReadsExactly s.eof n (bytes s) (readExactly s.eof n s.fd s.buf) := readExactly_spec
  have hresult := hread.result
  rw [if_neg (by omega)] at hresult
  refine ⟨(readExactly s.eof n s.fd s.buf).2, ?_⟩
  rw [← hresult]

/-- The source drops the first `n` bytes, if it has them. -/
theorem skipSource_spec {n : Nat} {fd : List (SourceBuf α)} :
    (n ≤ (flat fd).length ∧ ∃ buf fd', skipSource n fd = some (buf, fd') ∧
      buf ++ flat fd' = (flat fd).drop n) ∨ ((flat fd).length < n ∧ skipSource n fd = none) := by
  induction fd generalizing n with
  | nil =>
    by_cases hn : n = 0
    · subst hn
      exact .inl ⟨Nat.zero_le _, [], [], rfl, rfl⟩
    · refine .inr ⟨Nat.pos_of_ne_zero hn, ?_⟩
      rw [skipSource, if_neg hn]
  | cons b fd ih =>
    rw [flat_cons, List.length_append, skipSource]
    by_cases hle : b.1.length ≥ n
    · rw [if_pos hle]
      refine .inl ⟨by omega, b.1.drop n, fd, rfl, ?_⟩
      rw [List.drop_append_of_le_length hle]
    · rw [if_neg hle, List.drop_append, List.drop_of_length_le (by omega), List.nil_append]
      rcases @ih (n - b.1.length) with ⟨hn, buf, fd', hskip, hrest⟩ | ⟨hn, hskip⟩
      · exact .inl ⟨by omega, buf, fd', hskip, hrest⟩
      · exact .inr ⟨by omega, hskip⟩

/-- `skip` drops `n` bytes, or does not end when there are fewer. -/
theorem skip_spec (s : InputStream α) (n : Nat) :
    (n ≤ (bytes s).length ∧ ∃ s', s.skip n = some s' ∧ bytes s' = (bytes s).drop n ∧ s'.eof = s.eof) ∨
      ((bytes s).length < n ∧ s.skip n = none) := by
  rw [bytes, List.length_append, InputStream.skip]
  by_cases hle : n ≤ s.buf.length
  · rw [Nat.min_eq_left hle, Nat.sub_self, if_pos rfl]
    refine .inl ⟨by omega, _, rfl, ?_, rfl⟩
    rw [bytes, List.drop_append_of_le_length hle]
  · have hmin : min n s.buf.length = s.buf.length := by omega
    have hne : n - s.buf.length ≠ 0 := by omega
    rw [hmin, if_neg hne, List.drop_append, List.drop_of_length_le (by omega), List.nil_append]
    rcases @skipSource_spec _ (n - s.buf.length) s.fd with
      ⟨hn, buf, fd', hskip, hrest⟩ | ⟨hn, hskip⟩
    · rw [hskip]
      exact .inl ⟨by omega, _, rfl, hrest, rfl⟩
    · rw [hskip]
      exact .inr ⟨by omega, rfl⟩

/-- What `read` and `read_up_to` do: they give a part of the front, and nothing only at the end. -/
structure ReadsFront (before : List α) (r : List α × InputStream α) : Prop where
  split : before = r.1 ++ bytes r.2
  empty : r.1 = [] → before = []
  ends : Ends r.2

/-- Taking from a buffer that has bytes. -/
theorem takeUpTo_spec {s : InputStream α} {n : Nat} (hn : 0 < n) (hbuf : s.buf ≠ [])
    (heof : s.eof = false) : ReadsFront (bytes s) (s.takeUpTo n) ∧ (s.takeUpTo n).1.length ≤ n := by
  rw [takeUpTo]
  split
  · rename_i hle
    refine ⟨⟨rfl, fun hnil => absurd hnil hbuf, ?_⟩, hle⟩
    intro htrue
    rw [show s.eof = true from htrue] at heof
    cases heof
  · refine ⟨⟨take_append_rest n s.buf _, ?_, ?_⟩, ?_⟩
    · intro hnil
      rcases List.take_eq_nil_iff.mp hnil with hzero | hnil
      · omega
      · exact absurd hnil hbuf
    · intro htrue
      rw [show s.eof = true from htrue] at heof
      cases heof
    · rw [List.length_take]
      omega

/-- There is nothing left. -/
theorem ReadsFront.nothing {s s' : InputStream α} (h : bytes s = []) (h' : bytes s' = []) :
    ReadsFront (bytes s) ([], s') := by
  refine ⟨?_, fun _ => h, fun _ => h'⟩
  rw [h, h']
  rfl

/-- `read_up_to` returns bytes while there are any. -/
theorem readUpTo_spec {s : InputStream α} {n : Nat} (h : Ends s) (hn : 0 < n) :
    ReadsFront (bytes s) (s.readUpTo n) ∧ (s.readUpTo n).1.length ≤ n := by
  obtain ⟨fd, buf, eof⟩ := s
  cases eof with
  | true =>
    have hnil := h rfl
    obtain rfl : buf = [] := (List.append_eq_nil_iff.mp hnil).1
    exact ⟨ReadsFront.nothing hnil hnil, Nat.zero_le n⟩
  | false =>
    cases buf with
    | nil =>
      cases fd with
      | nil => exact ⟨ReadsFront.nothing rfl rfl, Nat.zero_le n⟩
      | cons b fd => exact @takeUpTo_spec _ ⟨fd, b.1, false⟩ n hn b.2 rfl
    | cons c buf => exact takeUpTo_spec hn (List.cons_ne_nil c buf) rfl

/-- Nothing is read, but the source can be asked for a buffer. -/
theorem readUpTo_zero {s : InputStream α} (h : Ends s) :
    (s.readUpTo 0).1 = [] ∧ bytes (s.readUpTo 0).2 = bytes s ∧ Ends (s.readUpTo 0).2 := by
  obtain ⟨fd, buf, eof⟩ := s
  cases eof with
  | true =>
    have hnil := h rfl
    obtain rfl : buf = [] := (List.append_eq_nil_iff.mp hnil).1
    exact ⟨rfl, rfl, h⟩
  | false =>
    cases buf with
    | nil =>
      cases fd with
      | nil => exact ⟨rfl, rfl, fun _ => rfl⟩
      | cons b fd =>
        obtain ⟨b, hb⟩ := b
        cases b with
        | nil => exact absurd rfl hb
        | cons c b => exact ⟨rfl, rfl, fun htrue => nomatch htrue⟩
    | cons c buf => exact ⟨rfl, rfl, fun htrue => nomatch htrue⟩

/-- `read` returns bytes while there are any. -/
theorem read_spec {s : InputStream α} (h : Ends s) : ReadsFront (bytes s) s.read := by
  obtain ⟨fd, buf, eof⟩ := s
  cases eof with
  | true => exact ReadsFront.nothing (h rfl) (h rfl)
  | false =>
    cases buf with
    | nil =>
      cases fd with
      | nil => exact ReadsFront.nothing rfl rfl
      | cons b fd => exact ⟨rfl, fun hnil => absurd hnil b.2, fun htrue => nomatch htrue⟩
    | cons c buf => exact ⟨rfl, (fun hnil => nomatch hnil), fun htrue => nomatch htrue⟩

/-! ### Sequences of calls -/

/-- What remains is what the stream has to give. -/
structure Follows (s : Session α) : Prop where
  rest : bytes s.stream = s.remaining
  ends : Ends s.stream
  correct : s.Correct

/-- A new stream has all its bytes before it. -/
theorem Follows.create (fd : List (SourceBuf α)) : Follows (Session.create fd) := by
  refine ⟨rfl, ?_, rfl, ?_⟩
  · intro h
    cases h
  · intro r hr
    cases hr

/-- What remains after a read from the front. -/
theorem ReadsFront.drop {before : List α} {r : List α × InputStream α} (h : ReadsFront before r) :
    bytes r.2 = before.drop r.1.length := by
  rw [h.split, List.drop_left]

/-- A call answers from what remains, and leaves the rest. -/
theorem perform_spec {s : Session α} (h : Follows s) {op : Read} (hallowed : s.Allowed op = true) :
    ∃ result stream, s.stream.perform op = some (result, stream) ∧
      op.Answers s.remaining result ∧ Ends stream ∧
      bytes stream = if s.tooFew op then [] else s.remaining.drop (op.taken result) := by
  rw [← h.rest]
  cases op with
  | exactly n =>
    have hread : ReadsExactly s.stream.eof n (bytes s.stream)
        (readExactly s.stream.eof n s.stream.fd s.stream.buf) := readExactly_spec
    refine ⟨_, _, rfl, hread.result, ?_, ?_⟩
    · intro htrue
      rcases hread.ends with heq | hnil
      · rw [hread.rest, h.ends (heq ▸ htrue)]
        simp
      · exact hnil
    · show _ = if decide (s.remaining.length < n) then []
        else (bytes s.stream).drop (readExactly s.stream.eof n s.stream.fd s.stream.buf).1.length
      rw [hread.rest, ← h.rest, hread.result]
      by_cases hle : n ≤ (bytes s.stream).length
      · have hnot : ¬ (bytes s.stream).length < n := by omega
        have hlen : ((bytes s.stream).take n).length = n := by
          rw [List.length_take]
          omega
        rw [if_pos hle, decide_eq_false hnot, if_neg (by simp), if_pos hle, hlen]
      · rw [if_neg hle, decide_eq_true (by omega), if_pos rfl]
  | upTo n =>
    obtain ⟨hfront, hle⟩ := readUpTo_spec h.ends (of_decide_eq_true hallowed)
    refine ⟨_, _, rfl, ⟨⟨_, hfront.split.symm⟩, hle, hfront.empty⟩, hfront.ends, ?_⟩
    exact hfront.drop
  | any =>
    have hfront := read_spec h.ends
    exact ⟨_, _, rfl, ⟨⟨_, hfront.split.symm⟩, hfront.empty⟩, hfront.ends, hfront.drop⟩
  | skip n =>
    have hle : n ≤ (bytes s.stream).length := by
      rw [h.rest]
      exact of_decide_eq_true hallowed
    -- No more is skipped than remains, so the source is never asked in vain.
    rcases skip_spec s.stream n with ⟨-, stream, hskip, hrest, heof⟩ | ⟨hlt, -⟩
    · refine ⟨[], stream, ?_, rfl, ?_, hrest⟩
      · rw [perform, hskip]
        rfl
      · intro htrue
        rw [hrest, h.ends (heof ▸ htrue)]
        simp
    · omega

/-- Every call of the stream follows the bytes. -/
theorem Follows.step {s t : Session α} (h : Follows s) {op : Read} (hstep : s.step op = some t) :
    Follows t := by
  rw [Session.step] at hstep
  split at hstep
  · cases hstep
  · rename_i henabled
    rw [not_or, Bool.not_eq_false] at henabled
    obtain ⟨result, stream, hperform, hanswers, hends, hrest⟩ := perform_spec h henabled.2
    rw [hperform] at hstep
    cases hstep
    refine ⟨?_, hends, rfl, ?_⟩
    · show bytes stream = if s.short || s.tooFew op then [] else s.left.drop (op.taken result)
      rw [hrest, Session.remaining]
      cases s.short <;> cases s.tooFew op <;> simp
    · intro r hr
      cases hr
      exact hanswers

/-- `read_exactly` and `skip` depend only on what the stream has to give. -/
theorem results_congr {ops : List Read} (hfixed : ∀ op ∈ ops, op.isFixed = true)
    {s s' : InputStream α} (h : bytes s = bytes s') : s.results ops = s'.results ops := by
  induction ops generalizing s s' with
  | nil => rfl
  | cons op ops ih =>
    have hrest := fun s s' => @ih (fun op' hop' => hfixed op' (List.mem_cons_of_mem op hop')) s s'
    rw [results, results]
    cases op with
    | exactly n =>
      have hread : ReadsExactly s.eof n (bytes s) (readExactly s.eof n s.fd s.buf) := readExactly_spec
      have hread' : ReadsExactly s'.eof n (bytes s') (readExactly s'.eof n s'.fd s'.buf) :=
        readExactly_spec
      rw [perform, perform, Option.bind_some, Option.bind_some, hread.result, hread'.result, h]
      have hbytes : bytes (readExactly s.eof n s.fd s.buf).2 =
          bytes (readExactly s'.eof n s'.fd s'.buf).2 := by
        rw [hread.rest, hread'.rest, h]
      rw [hrest _ _ hbytes]
    | skip n =>
      rw [perform, perform]
      rcases skip_spec s n with ⟨hle, t, hskip, hbytes, -⟩ | ⟨hlt, hskip⟩
      · rcases skip_spec s' n with ⟨-, t', hskip', hbytes', -⟩ | ⟨hlt', -⟩
        · rw [hskip, hskip']
          simp only [Option.map_some, Option.bind_some]
          rw [hrest t t' (by rw [hbytes, hbytes', h])]
        · rw [h] at hle
          omega
      · rcases skip_spec s' n with ⟨hle', -⟩ | ⟨-, hskip'⟩
        · rw [h] at hlt
          omega
        · rw [hskip, hskip']
    | upTo n => exact absurd (hfixed _ List.mem_cons_self) (by simp [Read.isFixed])
    | any => exact absurd (hfixed _ List.mem_cons_self) (by simp [Read.isFixed])

/-- In every sequence of calls the results are consecutive slices of the stream up to its end, and the
results of `read_exactly` and `skip` do not depend on the buffers. -/
theorem reads_slices (fd : List (SourceBuf α)) :
    (∀ ops : List Read, Always Session.step Session.Correct (Session.create fd) ops) ∧
      ∀ fd' : List (SourceBuf α),
        (fd'.map Subtype.val).flatten = (fd.map Subtype.val).flatten →
        ∀ ops : List Read, (∀ op ∈ ops, op.isFixed = true) →
          (InputStream.create fd').results ops = (InputStream.create fd).results ops := by
  constructor
  · intro ops
    exact always_of_guarded Follows (fun _ h => h.correct)
      (fun _ _ _ h (_ : True) hstep => h.step hstep) (Follows.create fd)
      (guarded_of_forall (fun _ _ _ => trivial) _)
  · intro fd' hflat ops hfixed
    exact results_congr hfixed hflat

/-- One stream in two cuts. -/
theorem reads_slices_two_cuts :
    Always Session.step Session.Correct (Session.create [⟨[1, 2], by decide⟩, ⟨[3], by decide⟩])
        [.exactly 1, .skip 1, .upTo 5, .any] ∧
      (InputStream.create [⟨[1], by decide⟩, ⟨[2, 3], by decide⟩]).results [.exactly 2, .skip 1] =
        (InputStream.create [⟨[1, 2], by decide⟩, ⟨[3], by decide⟩]).results [.exactly 2, .skip 1] :=
  ⟨(reads_slices _).1 _, (reads_slices _).2 _ (by decide) _ (by decide)⟩

/-- `read_exactly` of three bytes drops the two that are there, and `read` finds nothing. -/
theorem short_read_drops :
    ¬ Always Session.step Session.Unbroken (Session.create [⟨[1, 2], by decide⟩]) [.exactly 3, .any] := by
  intro h
  have hlast := (h.2 _ rfl).2 _ rfl
  exact absurd ((hlast.2 ⟨.any, [], [1, 2], []⟩ rfl).2 rfl) (by decide)

end Netstar.Proofs.Core.InputStream
