import Netstar.Lib.Run

/-!
# `Netstar.Spec.Core.InputStream`: `input_stream`

`fd` has the buffers that the data source is going to return. None of them is empty, and after the
last one the source returns empty buffers. A buffer is the list of its bytes, so that sharing it and
copying it are the same.

`skip` of the data source asks for buffers until it has enough bytes. At the end of the stream it goes
on forever, and then it has no result.

`Session` is a stream in use. `left` are the bytes that no result had and no `skip` passed, and
`short` says that a `read_exactly` has found too few bytes. Both are not in the source.
-/

set_option autoImplicit false

namespace Netstar.Spec.Core

/-- A buffer of the data source. -/
abbrev SourceBuf (α : Type) := { b : List α // b ≠ [] }

/-- `input_stream`. -/
structure InputStream (α : Type) where
  fd : List (SourceBuf α)
  buf : List α
  eof : Bool

namespace InputStream

variable {α : Type}

/-- The constructor. -/
def create (fd : List (SourceBuf α)) : InputStream α := ⟨fd, [], false⟩

/-- `read_exactly_part`, with the bytes that are completed. -/
def readExactlyPart (eof : Bool) (n : Nat) :
    List (SourceBuf α) → List α → List α → List α × InputStream α
  | fd, buf, out =>
    let now := min (n - out.length) buf.length
    let out := out ++ buf.take now
    let buf := buf.drop now
    if out.length = n then (out, ⟨fd, buf, eof⟩)
    else
      match fd with
      | [] => ([], ⟨[], buf, true⟩)
      | b :: fd => readExactlyPart eof n fd b.1 out

/-- `read_exactly`. -/
def readExactly (eof : Bool) (n : Nat) : List (SourceBuf α) → List α → List α × InputStream α
  | fd, buf =>
    if buf.length = n then (buf, ⟨fd, [], eof⟩)
    else if buf.length > n then (buf.take n, ⟨fd, buf.drop n, eof⟩)
    else if buf.length = 0 then
      match fd with
      | [] => ([], ⟨[], buf, true⟩)
      | b :: fd => readExactly eof n fd b.1
    else readExactlyPart eof n fd buf []

/-- `data_source_impl::skip`: what is left of the last buffer, and the buffers after it. -/
def skipSource : Nat → List (SourceBuf α) → Option (List α × List (SourceBuf α))
  | n, [] => if n = 0 then some ([], []) else none
  | n, b :: fd => if b.1.length ≥ n then some (b.1.drop n, fd) else skipSource (n - b.1.length) fd

/-- The end of `read_up_to`, for a buffer that is not empty. -/
def takeUpTo (s : InputStream α) (n : Nat) : List α × InputStream α :=
  if s.buf.length ≤ n then (s.buf, { s with buf := [] })
  else (s.buf.take n, { s with buf := s.buf.drop n })

/-- `read_up_to`. -/
def readUpTo (s : InputStream α) (n : Nat) : List α × InputStream α :=
  if s.buf.isEmpty then
    if s.eof then ([], s)
    else
      match s.fd with
      | [] => ([], { s with eof := true })
      | b :: fd => takeUpTo { s with fd := fd, buf := b.1 } n
  else s.takeUpTo n

/-- `read`. -/
def read (s : InputStream α) : List α × InputStream α :=
  if s.eof then ([], s)
  else if s.buf.isEmpty then
    match s.fd with
    | [] => ([], { s with eof := true })
    | b :: fd => (b.1, { s with fd := fd })
  else (s.buf, { s with buf := [] })

/-- `skip`. -/
def skip (s : InputStream α) (n : Nat) : Option (InputStream α) :=
  let skipBuf := min n s.buf.length
  let buf := s.buf.drop skipBuf
  let n := n - skipBuf
  if n = 0 then some { s with buf := buf }
  else (skipSource n s.fd).map fun r => { s with buf := r.1, fd := r.2 }

/-! ### Sequences of reads -/

/-- The calls. -/
inductive Read where
  | exactly (n : Nat)
  | upTo (n : Nat)
  | any
  | skip (n : Nat)
  deriving DecidableEq, Repr

/-- A call. `skip` returns nothing, and has no result at the end of the stream. -/
def perform (s : InputStream α) : Read → Option (List α × InputStream α)
  | .exactly n => some (readExactly s.eof n s.fd s.buf)
  | .upTo n => some (s.readUpTo n)
  | .any => some s.read
  | .skip n => (s.skip n).map fun s => ([], s)

/-- The results of a sequence of calls. -/
def results (s : InputStream α) : List Read → Option (List (List α))
  | [] => some []
  | op :: ops => (s.perform op).bind fun r => (r.2.results ops).map (r.1 :: ·)

/-- `read_exactly` or `skip`. -/
def Read.isFixed : Read → Bool
  | .exactly _ => true
  | .skip _ => true
  | _ => false

/-- The result that a call has when these bytes remain. -/
def Read.Answers (op : Read) (remaining result : List α) : Prop :=
  match op with
  | .exactly n => result = if n ≤ remaining.length then remaining.take n else []
  | .upTo n => result <+: remaining ∧ result.length ≤ n ∧ (result = [] → remaining = [])
  | .any => result <+: remaining ∧ (result = [] → remaining = [])
  | .skip _ => result = []

/-- The bytes that a call takes from what remains. -/
def Read.taken (op : Read) (result : List α) : Nat :=
  match op with
  | .skip n => n
  | _ => result.length

/-- A call with its result, what was left before it, and what remained for it. -/
structure Answer (α : Type) where
  op : Read
  result : List α
  left : List α
  remaining : List α

/-- A stream in use. -/
structure Session (α : Type) where
  stream : InputStream α
  left : List α
  short : Bool
  last : Option (Answer α)
  stuck : Bool

namespace Session

/-- A stream before the first call. -/
def create (fd : List (SourceBuf α)) : Session α :=
  ⟨.create fd, (fd.map Subtype.val).flatten, false, none, false⟩

/-- What remains to be read. A `read_exactly` that finds too few bytes takes the stream to its end. -/
def remaining (s : Session α) : List α := if s.short then [] else s.left

/-- A read that asks for something, and a skip that stays within what remains. -/
def Allowed (s : Session α) : Read → Bool
  | .upTo n => 0 < n
  | .skip n => n ≤ s.remaining.length
  | _ => true

/-- A `read_exactly` finds too few bytes. -/
def tooFew (s : Session α) : Read → Bool
  | .exactly n => s.remaining.length < n
  | _ => false

/-- One call. -/
def step (s : Session α) (op : Read) : Option (Session α) :=
  if s.stuck ∨ s.Allowed op = false then none
  else
    match s.stream.perform op with
    | none => some { s with stuck := true }
    | some (result, stream) => some
      { stream := stream
        left := s.left.drop (op.taken result)
        short := s.short || s.tooFew op
        last := some ⟨op, result, s.left, s.remaining⟩
        stuck := false }

/-- The results are consecutive slices of the stream, and nothing is left out. -/
def Unbroken (s : Session α) : Prop :=
  s.stuck = false ∧ ∀ r ∈ s.last, r.op.Answers r.left r.result

/-- The results are consecutive slices of the stream up to its end, which is also where a
`read_exactly` ends that finds too few bytes. -/
def Correct (s : Session α) : Prop :=
  s.stuck = false ∧ ∀ r ∈ s.last, r.op.Answers r.remaining r.result

end Session

end InputStream

end Netstar.Spec.Core
