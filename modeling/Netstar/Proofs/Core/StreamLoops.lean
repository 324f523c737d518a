import Netstar.Proofs.Core.InputStream
import Netstar.Spec.Core.StreamLoops

/-!
# `Netstar.Proofs.Core.StreamLoops`: when `skip` and `consume` end

The loop of `skip` makes progress by the bytes of the buffers it gets. At the end of the stream these
have no bytes, so it ends only if the stream has the bytes to skip.

`consume` tests `eof` in the continuation of a future that is ready, and not in the other one. So a
consumer whose answer to the end of the stream is not ready gets the end again.
-/

set_option autoImplicit false

namespace Netstar.Proofs.Core.InputStream

open Netstar.Lib
open Netstar.Spec.Core
open Netstar.Spec.Core.InputStream

attribute [grind =] consumeLoop

variable {α : Type}

/-! ### `skip` -/

/-- At the end of the source no number of rounds is enough. -/
theorem skipLoop_nil {n : Nat} (hn : n ≠ 0) (rounds : Nat) :
    skipLoop rounds n ([] : List (SourceBuf α)) = none := by
  induction rounds with
  | zero => rfl
  | succ rounds ih =>
    rw [skipLoop]
    show (if ([] : List α).length ≥ n then _ else skipLoop rounds (n - 0) []) = none
    rw [if_neg (by simpa using hn)]
    exact ih

/-- The loop ends exactly when the source has enough bytes. -/
theorem exists_skipLoop_iff {n : Nat} {fd : List (SourceBuf α)} {r : List α × List (SourceBuf α)} :
    (∃ rounds, skipLoop rounds n fd = some r) ↔ skipSource n fd = some r := by
  induction fd generalizing n with
  | nil =>
    by_cases hn : n = 0
    · subst hn
      constructor
      · rintro ⟨rounds, hrounds⟩
        cases rounds with
        | zero => cases hrounds
        | succ rounds => exact hrounds
      · exact fun h => ⟨1, h⟩
    · rw [skipSource, if_neg hn]
      constructor
      · rintro ⟨rounds, hrounds⟩
        rw [skipLoop_nil hn] at hrounds
        cases hrounds
      · intro h
        cases h
  | cons b fd ih =>
    by_cases hle : b.1.length ≥ n
    · rw [skipSource, if_pos hle]
      constructor
      · rintro ⟨rounds, hrounds⟩
        cases rounds with
        | zero => cases hrounds
        | succ rounds =>
          rw [skipLoop, getSource] at hrounds
          simpa only [if_pos hle] using hrounds
      · intro h
        refine ⟨1, ?_⟩
        rw [skipLoop, getSource]
        simpa only [if_pos hle] using h
    · rw [skipSource, if_neg hle, ← ih]
      -- the first round takes this buffer
      have hround : ∀ rounds, skipLoop (rounds + 1) n (b :: fd) =
          skipLoop rounds (n - b.1.length) fd := by
        intro rounds
        rw [skipLoop, getSource]
        simp only [if_neg hle]
      constructor
      · rintro ⟨rounds, hrounds⟩
        cases rounds with
        | zero => cases hrounds
        | succ rounds => exact ⟨rounds, (hround rounds).symm.trans hrounds⟩
      · rintro ⟨rounds, hrounds⟩
        exact ⟨rounds + 1, (hround rounds).trans hrounds⟩

/-- `skip` ends within some rounds exactly when it has a result. -/
theorem exists_skipRounds_iff {s t : InputStream α} {n : Nat} :
    (∃ rounds, s.skipRounds rounds n = some t) ↔ s.skip n = some t := by
  rw [skip]
  simp only [skipRounds]
  split
  · exact exists_const Nat
  · constructor
    · rintro ⟨rounds, hrounds⟩
      obtain ⟨r, hr, rfl⟩ := Option.map_eq_some_iff.mp hrounds
      rw [exists_skipLoop_iff.mp ⟨rounds, hr⟩]
      rfl
    · intro h
      obtain ⟨r, hr, rfl⟩ := Option.map_eq_some_iff.mp h
      obtain ⟨rounds, hrounds⟩ := exists_skipLoop_iff.mpr hr
      refine ⟨rounds, ?_⟩
      rw [hrounds]
      rfl

/-- `skip(n)` ends, the stream is `n` bytes further or at its end, and at the end the next read says so. -/
def Skips (s : Session α) (n : Nat) : Prop :=
  ∃ rounds t, s.stream.skipRounds rounds n = some t ∧ bytes t = s.remaining.drop n ∧
    (s.remaining.length ≤ n → t.read.1 = [])

/-- Every stream in use follows its source. -/
theorem Follows.of_run {fd : List (SourceBuf α)} {ops : List Read} {s : Session α}
    (hrun : run Session.step (Session.create fd) ops = some s) : Follows s :=
  run_invariant Follows (fun _ _ _ _ h hstep => h.step hstep) (Follows.create fd) hrun

/-- `skip(n)` does what it is for exactly when `n` bytes remain. -/
theorem skips_iff {fd : List (SourceBuf α)} {ops : List Read} {s : Session α}
    (hrun : run Session.step (Session.create fd) ops = some s) (n : Nat) :
    Skips s n ↔ n ≤ s.remaining.length := by
  have hfollows := Follows.of_run hrun
  rw [← hfollows.rest]
  constructor
  · rintro ⟨rounds, t, hskip, -⟩
    rcases skip_spec s.stream n with ⟨hle, -⟩ | ⟨-, hnone⟩
    · exact hle
    · rw [exists_skipRounds_iff.mp ⟨rounds, hskip⟩] at hnone
      cases hnone
  · intro hle
    rcases skip_spec s.stream n with ⟨-, t, hskip, hrest, heof⟩ | ⟨hlt, -⟩
    · obtain ⟨rounds, hrounds⟩ := exists_skipRounds_iff.mpr hskip
      have hends : Ends t := by
        intro htrue
        rw [hrest, hfollows.ends (heof ▸ htrue), List.drop_nil]
      refine ⟨rounds, t, hrounds, hfollows.rest ▸ hrest, fun hlast => ?_⟩
      have hnil : bytes t = [] := by
        rw [hrest, List.drop_eq_nil_iff, hfollows.rest]
        exact hlast
      have hsplit := (read_spec hends).split
      rw [hnil] at hsplit
      exact (List.append_eq_nil_iff.mp hsplit.symm).1
    · omega

/-- Two bytes of a stream are read, and then a skip goes over the end of its first buffer. -/
theorem skips_across_buffers :
    ∃ s, run Session.step (Session.create [⟨[(7 : UInt8), 8, 9], by decide⟩, ⟨[10, 11], by decide⟩])
        [.exactly 2] = some s ∧ s.remaining = [9, 10, 11] ∧ Skips s 2 := by
  refine ⟨_, rfl, rfl, ?_⟩
  exact (@skips_iff _ [⟨[(7 : UInt8), 8, 9], by decide⟩, ⟨[10, 11], by decide⟩] [.exactly 2] _ rfl
    2).mpr (by decide)

/-- A stream of one byte: two bytes cannot be skipped. -/
theorem not_skips_beyond : ¬Skips (Session.create [⟨[(7 : UInt8)], by decide⟩]) 2 := by
  rintro ⟨rounds, t, hskip, -⟩
  have hnone := exists_skipRounds_iff.mp ⟨rounds, hskip⟩
  cases hnone

/-! ### The rounds of `consume` -/

variable {consumer : Consumer α} {x y z t : Consuming α} {calls bs bs' : List (List α)}
  {s : InputStream α}

/-- More rounds do not matter. -/
theorem consumeLoop_add {rounds : Nat} (h : consumeLoop consumer rounds x = some t) (k : Nat) :
    consumeLoop consumer (rounds + k) x = some t := by
  induction rounds generalizing x with
  | zero => cases h
  | succ rounds ih =>
    rw [Nat.succ_add, consumeLoop]
    rw [consumeLoop] at h
    cases hround : consumeRound consumer x with
    | mk c stop =>
      simp only [hround] at h ⊢
      cases stop with
      | true => exact h
      | false => exact ih h

/-- The loop comes from `x` to `y`. -/
def Goes (consumer : Consumer α) (x y : Consuming α) : Prop :=
  ∃ k, ∀ rounds, consumeLoop consumer (rounds + k) x = consumeLoop consumer rounds y

/-- The loop ends with `t`. -/
def Stops (consumer : Consumer α) (x t : Consuming α) : Prop :=
  ∃ rounds, consumeLoop consumer rounds x = some t

/-- A round that goes on. -/
theorem Goes.of_round (h : consumeRound consumer x = (y, false)) : Goes consumer x y := by
  refine ⟨1, fun rounds => ?_⟩
  rw [consumeLoop, h]
  rfl

/-- A round that stops. -/
theorem Stops.of_round (h : consumeRound consumer x = (t, true)) : Stops consumer x t := by
  refine ⟨1, ?_⟩
  rw [consumeLoop, h]
  rfl

/-- Rounds in a row. -/
theorem Goes.trans (h : Goes consumer x y) (h' : Goes consumer y z) : Goes consumer x z := by
  obtain ⟨k, hk⟩ := h
  obtain ⟨k', hk'⟩ := h'
  refine ⟨k' + k, fun rounds => ?_⟩
  rw [← Nat.add_assoc, hk, hk']

/-- The loop ends in the same way from `y` on. -/
theorem Goes.stops_iff (h : Goes consumer x y) : Stops consumer x t ↔ Stops consumer y t := by
  obtain ⟨k, hk⟩ := h
  constructor
  · rintro ⟨rounds, hrounds⟩
    exact ⟨rounds, (hk rounds).symm.trans (consumeLoop_add hrounds k)⟩
  · rintro ⟨rounds, hrounds⟩
    exact ⟨rounds + k, (hk rounds).trans hrounds⟩

/-- The loop stops in one way only. -/
theorem Stops.unique (h : Stops consumer x y) (h' : Stops consumer x z) : y = z := by
  obtain ⟨rounds, hrounds⟩ := h
  obtain ⟨rounds', hrounds'⟩ := h'
  have hadd := consumeLoop_add hrounds rounds'
  rw [Nat.add_comm, consumeLoop_add hrounds' rounds] at hadd
  exact (Option.some.inj hadd).symm

/-- A round adds at most the buffer to the calls, and a round that stops does. -/
theorem consumeRound_calls (consumer : Consumer α) (x : Consuming α) :
    x.calls.length + (consumeRound consumer x).2.toNat ≤ (consumeRound consumer x).1.calls.length := by
  rw [consumeRound]
  split
  · exact Nat.le_refl _
  · -- the four answers of the consumer
    simp only
    split <;> split <;> simp [Bool.toNat_le]

/-- The consumer is called at least once more. -/
theorem Stops.calls_lt (h : Stops consumer x t) : x.calls.length < t.calls.length := by
  obtain ⟨rounds, hrounds⟩ := h
  induction rounds generalizing x with
  | zero => cases hrounds
  | succ rounds ih =>
    have hle := consumeRound_calls consumer x
    rw [consumeLoop] at hrounds
    cases hround : consumeRound consumer x with
    | mk c stop =>
      rw [hround] at hle
      simp only [hround] at hrounds
      cases stop with
      | true =>
        cases hrounds
        exact hle
      | false => exact Nat.lt_of_le_of_lt hle (ih hrounds)

/-! ### The answers -/

/-- An empty stream asks the source. -/
theorem goes_fetch (b : SourceBuf α) (fd : List (SourceBuf α)) (calls : List (List α)) :
    Goes consumer ⟨⟨b :: fd, [], false⟩, calls⟩ ⟨⟨fd, b.1, false⟩, calls⟩ := by
  have hempty : b.1.isEmpty = false := by
    rw [List.isEmpty_eq_false_iff]
    exact b.2
  apply Goes.of_round
  show ((⟨⟨fd, b.1, b.1.isEmpty⟩, calls⟩ : Consuming α), false) = _
  rw [hempty]

/-- The source has ended. -/
theorem goes_end (calls : List (List α)) :
    Goes consumer ⟨⟨[], [], false⟩, calls⟩ ⟨⟨[], [], true⟩, calls⟩ :=
  Goes.of_round rfl

/-- A buffer that is not the last one: ready or not, the loop goes on without a remainder. -/
theorem round_buffer (consumer : Consumer α) (fd : List (SourceBuf α)) {buf : List α} (hbuf : buf ≠ [])
    (calls : List (List α)) :
    consumeRound consumer ⟨⟨fd, buf, false⟩, calls⟩ =
      match (consumer (calls ++ [buf])).remainder with
      | some u => (⟨⟨fd, u, false⟩, calls ++ [buf]⟩, true)
      | none => (⟨⟨fd, [], false⟩, calls ++ [buf]⟩, false) := by
  have hempty : buf.isEmpty = false := by
    rw [List.isEmpty_eq_false_iff]
    exact hbuf
  rw [consumeRound]
  simp only [hempty, Bool.false_and, Bool.false_eq_true, if_false]
  split <;> cases (consumer (calls ++ [buf])).remainder <;> rfl

/-- After the end of the source, a ready answer and another one are different. -/
theorem round_end (consumer : Consumer α) (fd : List (SourceBuf α)) (buf : List α)
    (calls : List (List α)) :
    consumeRound consumer ⟨⟨fd, buf, true⟩, calls⟩ =
      match (consumer (calls ++ [buf])).remainder with
      | some u => (⟨⟨fd, u, true⟩, calls ++ [buf]⟩, true)
      | none => (⟨⟨fd, [], true⟩, calls ++ [buf]⟩, (consumer (calls ++ [buf])).ready) := by
  rw [consumeRound]
  simp only [Bool.not_true, Bool.and_false, Bool.false_eq_true, if_false]
  cases hready : (consumer (calls ++ [buf])).ready <;>
    cases (consumer (calls ++ [buf])).remainder <;> rfl

/-! ### The buffers of the stream -/

/-- The consumer stops with a remainder. -/
theorem serve_cons_some {b u : List α} (bs : List (List α))
    (h : (consumer (calls ++ [b])).remainder = some u) :
    serve consumer calls (b :: bs) = ⟨calls ++ [b], some u, bs⟩ := by
  rw [serve, h]

/-- The consumer goes on. -/
theorem serve_cons_none {b : List α} (bs : List (List α))
    (h : (consumer (calls ++ [b])).remainder = none) :
    serve consumer calls (b :: bs) = serve consumer (calls ++ [b]) bs := by
  rw [serve, h]

/-- A consumer that is done before the end does not see it. -/
theorem serve_append_some {u : List α} (h : (serve consumer calls bs).remainder = some u) :
    serve consumer calls (bs ++ bs') =
      ⟨(serve consumer calls bs).calls, some u, (serve consumer calls bs).rest ++ bs'⟩ := by
  induction bs generalizing calls with
  | nil => cases h
  | cons b bs ih =>
    cases hreply : (consumer (calls ++ [b])).remainder with
    | none =>
      rw [serve_cons_none _ hreply] at h ⊢
      rw [List.cons_append, serve_cons_none _ hreply]
      exact ih h
    | some v =>
      rw [serve_cons_some _ hreply] at h ⊢
      cases h
      rw [List.cons_append, serve_cons_some _ hreply]

/-- A consumer that is not done gets all of them. -/
theorem serve_append_none (h : (serve consumer calls bs).remainder = none) :
    serve consumer calls (bs ++ bs') = serve consumer (calls ++ bs) bs' := by
  induction bs generalizing calls with
  | nil => rw [List.nil_append, List.append_nil]
  | cons b bs ih =>
    cases hreply : (consumer (calls ++ [b])).remainder with
    | none =>
      rw [serve_cons_none _ hreply] at h
      rw [List.cons_append, serve_cons_none _ hreply, ih h, List.append_assoc]
      rfl
    | some v =>
      rw [serve_cons_some _ hreply] at h
      cases h

/-- How the loop passes the buffers of the stream. -/
structure Passes (consumer : Consumer α) (x : Consuming α) (bs : List (List α)) : Prop where
  done : ∀ u, (serve consumer x.calls bs).remainder = some u →
    ∃ fd, Stops consumer x ⟨⟨fd, u, false⟩, (serve consumer x.calls bs).calls⟩ ∧
      (serve consumer x.calls bs).rest = fd.map Subtype.val
  more : (serve consumer x.calls bs).remainder = none →
    Goes consumer x ⟨⟨[], [], true⟩, x.calls ++ bs⟩

/-- Rounds that make no call before the buffers are passed. -/
theorem Goes.passes (h : Goes consumer x y) (hcalls : x.calls = y.calls)
    (hy : Passes consumer y bs) : Passes consumer x bs := by
  constructor
  · intro u hu
    rw [hcalls] at hu ⊢
    obtain ⟨fd, hstops, hrest⟩ := hy.done u hu
    exact ⟨fd, h.stops_iff.mpr hstops, hrest⟩
  · intro hnone
    rw [hcalls] at hnone ⊢
    exact h.trans (hy.more hnone)

/-- The buffer comes first. -/
theorem passes_cons {fd : List (SourceBuf α)} {buf : List α} (hbuf : buf ≠ []) (calls : List (List α))
    (hrest : Passes consumer ⟨⟨fd, [], false⟩, calls ++ [buf]⟩ (fd.map Subtype.val)) :
    Passes consumer ⟨⟨fd, buf, false⟩, calls⟩ (buf :: fd.map Subtype.val) := by
  have hround := round_buffer consumer fd hbuf calls
  cases hreply : (consumer (calls ++ [buf])).remainder with
  | some u =>
    rw [hreply] at hround
    have hserve := serve_cons_some (fd.map Subtype.val) hreply
    constructor
    · intro v hv
      rw [hserve] at hv ⊢
      cases hv
      exact ⟨fd, Stops.of_round hround, rfl⟩
    · intro hnone
      rw [hserve] at hnone
      cases hnone
  | none =>
    rw [hreply] at hround
    have hserve := serve_cons_none (fd.map Subtype.val) hreply
    have hgoes := Goes.of_round hround
    constructor
    · intro v hv
      rw [hserve] at hv ⊢
      obtain ⟨fd', hstops, heq⟩ := hrest.done v hv
      exact ⟨fd', hgoes.stops_iff.mpr hstops, heq⟩
    · intro hnone
      rw [hserve] at hnone
      have hmore := hgoes.trans (hrest.more hnone)
      rwa [List.append_assoc] at hmore

/-- The buffers of the source are passed one by one. -/
theorem passes_source (fd : List (SourceBuf α)) (calls : List (List α)) :
    Passes consumer ⟨⟨fd, [], false⟩, calls⟩ (fd.map Subtype.val) := by
  induction fd generalizing calls with
  | nil =>
    constructor
    · intro u hu
      cases hu
    · intro _
      rw [List.map_nil, List.append_nil]
      exact goes_end calls
  | cons b fd ih =>
    have hbuf : Passes consumer ⟨⟨fd, b.1, false⟩, calls⟩ (b.1 :: fd.map Subtype.val) :=
      passes_cons b.2 calls (ih (calls ++ [b.1]))
    exact (goes_fetch b fd calls).passes rfl hbuf

/-- So are those of the stream. -/
theorem passes_buffered {s : InputStream α} (heof : s.eof = false) (calls : List (List α)) :
    Passes consumer ⟨s, calls⟩ s.buffered := by
  obtain ⟨fd, buf, eof⟩ := s
  cases heof
  cases buf with
  | nil => exact passes_source fd calls
  | cons b buf => exact passes_cons (List.cons_ne_nil b buf) calls (passes_source fd _)

/-! ### The end of the stream -/

/-- The loop ends as it is for. -/
def EndsAs (consumer : Consumer α) (x : Consuming α) (r : Served α) : Prop :=
  ∃ t, Stops consumer x t ∧ t.calls = r.calls ∧ t.stream.read.1 = r.next

/-- Rounds in between do not change how the loop ends. -/
theorem Goes.endsAs_iff (h : Goes consumer x y) (r : Served α) :
    EndsAs consumer x r ↔ EndsAs consumer y r :=
  exists_congr fun _ => and_congr_left fun _ => h.stops_iff

/-- How a loop that has stopped ends. -/
theorem Stops.endsAs_iff (h : Stops consumer x t) (r : Served α) :
    EndsAs consumer x r ↔ t.calls = r.calls ∧ t.stream.read.1 = r.next := by
  constructor
  · rintro ⟨t', ht', hends⟩
    rwa [h.unique ht']
  · exact fun hends => ⟨t, h, hends⟩

/-- The end is delivered once, if the answer says that it is the last one. -/
theorem endsAs_end_iff (fd : List (SourceBuf α)) (calls : List (List α)) :
    EndsAs consumer ⟨⟨fd, [], true⟩, calls⟩ (serve consumer calls [[]]) ↔
      (consumer (calls ++ [[]])).Ends := by
  have hround := round_end consumer fd [] calls
  rw [Reply.Ends]
  cases hreply : (consumer (calls ++ [[]])).remainder with
  | some u =>
    rw [hreply] at hround
    rw [(Stops.of_round hround).endsAs_iff, serve_cons_some _ hreply]
    -- `read` returns nothing after the end of the stream
    show (calls ++ [[]] = calls ++ [[]] ∧ [] = Served.next ⟨_, some u, []⟩) ↔ u = []
    cases u <;> simp [Served.next]
  | none =>
    rw [hreply] at hround
    rw [serve_cons_none _ hreply, serve]
    cases hready : (consumer (calls ++ [[]])).ready with
    | true =>
      rw [hready] at hround
      rw [(Stops.of_round hround).endsAs_iff]
      exact iff_of_true ⟨rfl, rfl⟩ rfl
    | false =>
      rw [hready] at hround
      rw [(Goes.of_round hround).endsAs_iff]
      refine iff_of_false ?_ (fun h => nomatch h)
      rintro ⟨t, hstops, hcalls, -⟩
      -- the end is delivered once more
      have hlt := hstops.calls_lt
      rw [hcalls] at hlt
      exact Nat.lt_irrefl _ hlt

/-- The source has nothing after its end. -/
def SourceEnds (s : InputStream α) : Prop := s.eof = true → s.fd = []

/-- `consume` is right when it ends as the consumer was served. -/
theorem consumes_iff_endsAs :
    Consumes consumer s ↔ EndsAs consumer ⟨s, []⟩ (serve consumer [] s.unread) := by
  constructor
  · rintro ⟨rounds, t, hrounds, hends⟩
    exact ⟨t, ⟨rounds, hrounds⟩, hends⟩
  · rintro ⟨t, ⟨rounds, hrounds⟩, hends⟩
    exact ⟨rounds, t, hrounds, hends⟩

/-- A stream that has a buffer after its end. -/
theorem endsAs_after_end (buf : List α) :
    EndsAs consumer ⟨⟨[], buf, true⟩, []⟩ (serve consumer [] [buf, []]) ↔
      match (consumer [buf]).remainder with
      | some u => u = []
      | none => (consumer [buf]).ready = false ∧ (consumer [buf, []]).Ends := by
  have hround := round_end consumer [] buf []
  have hnil : [] ++ [buf] = [buf] := rfl
  rw [hnil] at hround
  cases hreply : (consumer [buf]).remainder with
  | some u =>
    rw [hreply] at hround
    rw [(Stops.of_round hround).endsAs_iff, serve_cons_some _ hreply]
    show ([buf] = [buf] ∧ [] = Served.next ⟨_, some u, [[]]⟩) ↔ u = []
    cases u <;> simp [Served.next]
  | none =>
    rw [hreply] at hround
    rw [serve_cons_none _ hreply]
    cases hready : (consumer [buf]).ready with
    | false =>
      rw [hready] at hround
      rw [(Goes.of_round hround).endsAs_iff, hnil, endsAs_end_iff]
      exact (and_iff_right rfl).symm
    | true =>
      rw [hready] at hround
      rw [(Stops.of_round hround).endsAs_iff]
      refine iff_of_false ?_ (fun h => nomatch h.1)
      rintro ⟨hcalls, -⟩
      -- the loop has stopped before the end was delivered
      have hlength := congrArg List.length hcalls
      cases hend : (consumer ([buf] ++ [[]])).remainder with
      | none =>
        rw [hnil, serve_cons_none _ hend] at hlength
        cases hlength
      | some u =>
        rw [hnil, serve_cons_some _ hend] at hlength
        cases hlength

/-- `consume` is right exactly when the consumer answers the end of the stream. -/
theorem SourceEnds.consumes_answersEnd_iff (h : SourceEnds s) (consumer : Consumer α) :
    Consumes consumer s ↔ AnswersEnd consumer s := by
  rw [consumes_iff_endsAs, AnswersEnd]
  obtain ⟨fd, buf, eof⟩ := s
  cases eof with
  | false =>
    have hpasses : Passes consumer ⟨⟨fd, buf, false⟩, []⟩ (buffered ⟨fd, buf, false⟩) :=
      passes_buffered rfl []
    rw [if_neg (by simp), unread]
    cases hserve : (serve consumer [] (buffered ⟨fd, buf, false⟩)).remainder with
    | some u =>
      obtain ⟨fd', hstops, hrest⟩ := hpasses.done u hserve
      rw [hstops.endsAs_iff, serve_append_some hserve]
      refine iff_of_true ⟨rfl, ?_⟩ (fun hnone => nomatch hnone)
      show (InputStream.read ⟨fd', u, false⟩).1 = Served.next ⟨_, some u, _ ++ [[]]⟩
      rw [show (serve consumer [] (buffered ⟨fd, buf, false⟩)).rest = _ from hrest]
      cases u with
      | cons b u => rfl
      | nil => cases fd' <;> rfl
    | none =>
      rw [(hpasses.more hserve).endsAs_iff, serve_append_none hserve, endsAs_end_iff]
      exact ⟨fun hends _ => hends, fun hends => hends rfl⟩
  | true =>
    cases h rfl
    cases buf with
    | nil =>
      rw [if_neg (by simp)]
      exact (endsAs_end_iff [] []).trans ⟨fun hends _ => hends, fun hends => hends rfl⟩
    | cons b buf =>
      rw [if_pos (by simp)]
      exact endsAs_after_end (b :: buf)

/-! ### Streams in use -/

/-- A new stream has not seen the end. -/
theorem SourceEnds.create (fd : List (SourceBuf α)) : SourceEnds (InputStream.create fd) :=
  fun h => nomatch h

/-- `read_exactly_part` sees the end only when the source has nothing left. -/
theorem readExactlyPart_sourceEnds {n : Nat} {fd : List (SourceBuf α)} {buf out : List α} {eof : Bool}
    (h : SourceEnds ⟨fd, buf, eof⟩) : SourceEnds (readExactlyPart eof n fd buf out).2 := by
  fun_induction readExactlyPart eof n fd buf out with
  | case1 => exact h
  | case2 => exact fun _ => rfl
  | case3 buf out now out' hlen b fd ih => exact ih fun htrue => by cases h htrue

/-- So does `read_exactly`. -/
theorem readExactly_sourceEnds {n : Nat} {fd : List (SourceBuf α)} {buf : List α} {eof : Bool}
    (h : SourceEnds ⟨fd, buf, eof⟩) : SourceEnds (readExactly eof n fd buf).2 := by
  fun_induction readExactly eof n fd buf with
  | case1 => exact h
  | case2 => exact h
  | case3 => exact fun _ => rfl
  | case4 buf hne hle hempty b fd ih => exact ih fun htrue => by cases h htrue
  | case5 => exact readExactlyPart_sourceEnds h

/-- Taking from the buffer does not look at the source. -/
theorem takeUpTo_sourceEnds {n : Nat} (h : SourceEnds s) : SourceEnds (s.takeUpTo n).2 := by
  rw [takeUpTo]
  split
  · exact h
  · exact h

/-- Every read keeps it. -/
theorem SourceEnds.perform {op : Read} {r : List α × InputStream α} (h : SourceEnds s)
    (hop : s.perform op = some r) : SourceEnds r.2 := by
  cases op with
  | exactly n =>
    cases hop
    exact readExactly_sourceEnds h
  | upTo n =>
    cases hop
    show SourceEnds (s.readUpTo n).2
    rw [readUpTo]
    split
    · split
      · exact h
      · rename_i heof
        split
        · rename_i hfd
          exact fun _ => hfd
        · exact takeUpTo_sourceEnds fun htrue => absurd htrue heof
    · exact takeUpTo_sourceEnds h
  | any =>
    cases hop
    show SourceEnds s.read.2
    rw [InputStream.read]
    split
    · exact h
    · rename_i heof
      split
      · split
        · rename_i hfd
          exact fun _ => hfd
        · exact fun htrue => absurd htrue heof
      · exact h
  | skip n =>
    obtain ⟨t, hskip, rfl⟩ := Option.map_eq_some_iff.mp hop
    rw [InputStream.skip] at hskip
    split at hskip
    · cases hskip
      exact h
    · obtain ⟨r, hr, rfl⟩ := Option.map_eq_some_iff.mp hskip
      intro htrue
      -- there is nothing in the source to skip
      rw [h htrue, skipSource, if_neg (by assumption)] at hr
      cases hr

/-- A round of `consume` keeps it. -/
theorem SourceEnds.round (h : SourceEnds x.stream) :
    SourceEnds (consumeRound consumer x).1.stream := by
  obtain ⟨⟨fd, buf, eof⟩, calls⟩ := x
  cases eof with
  | true =>
    rw [round_end]
    split
    · exact h
    · exact h
  | false =>
    cases buf with
    | nil =>
      cases fd with
      | nil => exact fun _ => rfl
      | cons b fd =>
        intro htrue
        exact absurd (List.isEmpty_iff.mp htrue) b.2
    | cons b buf =>
      rw [round_buffer consumer fd (List.cons_ne_nil b buf)]
      split
      · exact h
      · exact h

/-- So does the loop of `consume`. -/
theorem SourceEnds.loop {rounds : Nat} (h : SourceEnds x.stream)
    (ht : consumeLoop consumer rounds x = some t) : SourceEnds t.stream := by
  induction rounds generalizing x with
  | zero => cases ht
  | succ rounds ih =>
    rw [consumeLoop] at ht
    have hround : SourceEnds (consumeRound consumer x).1.stream := h.round
    cases hstep : consumeRound consumer x with
    | mk c stop =>
      rw [hstep] at hround
      simp only [hstep] at ht
      cases stop with
      | true =>
        cases ht
        exact hround
      | false => exact ih hround ht

/-- Every use of a stream keeps it. -/
theorem SourceEnds.use {u : Use α} {s' : InputStream α} (h : SourceEnds s) (hu : s.use u = some s') :
    SourceEnds s' := by
  cases u with
  | read op =>
    obtain ⟨r, hr, rfl⟩ := Option.map_eq_some_iff.mp hu
    exact h.perform hr
  | consume consumer rounds =>
    obtain ⟨t, ht, rfl⟩ := Option.map_eq_some_iff.mp hu
    exact SourceEnds.loop h ht

/-- In every stream that is in use, `consume` does what it is for exactly when the consumer answers the
end of the stream. -/
theorem consumes_iff {fd : List (SourceBuf α)} {uses : List (Use α)} {s : InputStream α}
    (hrun : run use (InputStream.create fd) uses = some s) (consumer : Consumer α) :
    Consumes consumer s ↔ AnswersEnd consumer s := by
  have hsource : SourceEnds s :=
    run_invariant SourceEnds (fun _ _ _ _ h hu => h.use hu) (SourceEnds.create fd) hrun
  exact hsource.consumes_answersEnd_iff consumer

/-- A byte is read, a consumer returns a remainder, and the next consumer is pending for the data and
ready at the end. -/
theorem consumes_after_remainder :
    ∃ s, run use (InputStream.create [⟨[(7 : UInt8), 8, 9], by decide⟩, ⟨[10], by decide⟩])
        [.read (.exactly 1), .consume (fun _ => ⟨true, some [9]⟩) 2] = some s ∧
      s.unread = [[9], [10], []] ∧ Consumes (fun calls => ⟨calls.getLast? == some [], none⟩) s := by
  refine ⟨_, rfl, rfl, ?_⟩
  exact (@consumes_iff _ [⟨[(7 : UInt8), 8, 9], by decide⟩, ⟨[10], by decide⟩]
    [.read (.exactly 1), .consume (fun _ => ⟨true, some [9]⟩) 2] _ rfl _).mpr fun _ => rfl

/-- A consumer that is ready for more at a later time gets the end again and again. -/
theorem not_consumes_pending :
    ¬Consumes (fun _ => ⟨false, none⟩) (InputStream.create [⟨[(7 : UInt8)], by decide⟩]) := by
  intro h
  have hends := ((SourceEnds.create _).consumes_answersEnd_iff _).mp h rfl
  cases hends

end Netstar.Proofs.Core.InputStream
