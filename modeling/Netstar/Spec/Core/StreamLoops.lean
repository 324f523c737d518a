import Netstar.Spec.Core.InputStream

/-!
# `Netstar.Spec.Core.StreamLoops`: the loops of `skip` and `consume`

Both loops can go on forever. So they have a number of rounds here, and no result when the rounds are
not enough.

A consumer gets a buffer and returns a future. Its answer may depend on all the buffers that it got. It
says whether the future is ready at once, and it has a remainder when the consumer is done.

`serve` is what `consume` is for, without a word about futures: the unread buffers and then an empty
one, up to the first answer with a remainder.
-/

set_option autoImplicit false

namespace Netstar.Spec.Core.InputStream

variable {α : Type}

/-- `get` of the data source. After the last buffer it returns empty ones. -/
def getSource : List (SourceBuf α) → List α × List (SourceBuf α)
  | [] => ([], [])
  | b :: fd => (b.1, fd)

/-- The loop of `data_source_impl::skip`. -/
def skipLoop : Nat → Nat → List (SourceBuf α) → Option (List α × List (SourceBuf α))
  | 0, _, _ => none
  | rounds + 1, n, fd =>
    let (buffer, fd) := getSource fd
    if buffer.length ≥ n then some (buffer.drop n, fd)
    else skipLoop rounds (n - buffer.length) fd

/-- `skip`, with the rounds of the loop in the data source. -/
def skipRounds (rounds : Nat) (s : InputStream α) (n : Nat) : Option (InputStream α) :=
  let skipBuf := min n s.buf.length
  let buf := s.buf.drop skipBuf
  let n := n - skipBuf
  if n = 0 then some { s with buf := buf }
  else (skipLoop rounds n s.fd).map fun r => { s with buf := r.1, fd := r.2 }

/-! ### `consume` -/

/-- The answer of a consumer. `remainder` is its `unconsumed_remainder`. -/
structure Reply (α : Type) where
  ready : Bool
  remainder : Option (List α)
  deriving DecidableEq, Repr

/-- A consumer: what it answers to the last of the buffers that it got. -/
abbrev Consumer (α : Type) := List (List α) → Reply α

/-- A call of `consume`: the stream, and the buffers that the consumer got. -/
structure Consuming (α : Type) where
  stream : InputStream α
  calls : List (List α)

/-- One round of `consume`. The second component is `stop_iteration::yes`. -/
def consumeRound (consumer : Consumer α) (c : Consuming α) : Consuming α × Bool :=
  if c.stream.buf.isEmpty && !c.stream.eof then
    -- An empty buffer is filled from the source, and an empty piece is the end.
    let (buf, fd) := getSource c.stream.fd
    ({ c with stream := ⟨fd, buf, buf.isEmpty⟩ }, false)
  else
    -- The consumer gets the whole buffer, also when it is the empty one of the end.
    let calls := c.calls ++ [c.stream.buf]
    let stream := { c.stream with buf := [] }
    let reply := consumer calls
    if reply.ready then
      match reply.remainder with
      | some u => (⟨{ stream with buf := u }, calls⟩, true)
      | none => (⟨stream, calls⟩, stream.eof)
    else
      match reply.remainder with
      | some u => (⟨{ stream with buf := u }, calls⟩, true)
      | none => (⟨stream, calls⟩, false)

/-- `consume`. -/
def consumeLoop (consumer : Consumer α) : Nat → Consuming α → Option (Consuming α)
  | 0, _ => none
  | rounds + 1, c =>
    let (c, stop) := consumeRound consumer c
    if stop then some c else consumeLoop consumer rounds c

/-! ### What `consume` is for -/

/-- The buffers that a consumer got, the remainder, and the buffers after it. -/
structure Served (α : Type) where
  calls : List (List α)
  remainder : Option (List α)
  rest : List (List α)

/-- The consumer gets the buffers until it returns a remainder. -/
def serve (consumer : Consumer α) : List (List α) → List (List α) → Served α
  | calls, [] => ⟨calls, none, []⟩
  | calls, b :: bs =>
    match (consumer (calls ++ [b])).remainder with
    | some u => ⟨calls ++ [b], some u, bs⟩
    | none => serve consumer (calls ++ [b]) bs

/-- What the next read is to see: the remainder, and the next buffer if it is empty. -/
def Served.next (r : Served α) : List α :=
  match r.remainder with
  | some (x :: u) => x :: u
  | _ => r.rest.headD []

/-- The buffers of the stream. -/
def buffered (s : InputStream α) : List (List α) :=
  (if s.buf.isEmpty then [] else [s.buf]) ++ s.fd.map Subtype.val

/-- The buffers, and the empty one for the end of the stream. -/
def unread (s : InputStream α) : List (List α) := s.buffered ++ [[]]

/-- `consume` returns. It has made the calls that it is for, and the next read sees the remainder. -/
def Consumes (consumer : Consumer α) (s : InputStream α) : Prop :=
  ∃ rounds t, consumeLoop consumer rounds ⟨s, []⟩ = some t ∧
    t.calls = (serve consumer [] s.unread).calls ∧
    t.stream.read.1 = (serve consumer [] s.unread).next

/-- The answer to the end of the stream is ready, or it has an empty remainder. -/
def Reply.Ends (r : Reply α) : Prop :=
  match r.remainder with
  | none => r.ready = true
  | some u => u = []

/-- The consumer answers the end of the stream, if it comes that far. A stream with a buffer left after
its end has it from a consumer that returned a remainder there. Its answer must not be ready. -/
def AnswersEnd (consumer : Consumer α) (s : InputStream α) : Prop :=
  if s.eof && !s.buf.isEmpty then
    match (consumer [s.buf]).remainder with
    | some u => u = []
    | none => (consumer [s.buf]).ready = false ∧ (consumer [s.buf, []]).Ends
  else (serve consumer [] s.buffered).remainder = none → (consumer s.unread).Ends

/-! ### Streams in use -/

/-- A use of a stream: one of the reads, or a `consume` that ends within some rounds. -/
inductive Use (α : Type) where
  | read (op : Read)
  | consume (consumer : Consumer α) (rounds : Nat)

/-- The stream after a use that ends. -/
def use (s : InputStream α) : Use α → Option (InputStream α)
  | .read op => (s.perform op).map Prod.snd
  | .consume consumer rounds => (consumeLoop consumer rounds ⟨s, []⟩).map Consuming.stream

end Netstar.Spec.Core.InputStream
