import Netstar.Lib.Run

/-!
# `Netstar.Lib.ChunkedCoding`: the chunked transfer coding

A chunk is its size in hexadecimal digits, a line break, its bytes and a line break. The last chunk
has size zero and is followed by an empty line. `decode` reads the coding byte by byte: a decoder is
a state machine, so that what it does with two parts of the input composes (`run_append`). After the
last chunk it takes no byte. `decode_encode` is the round trip for chunks that are not empty.
-/

set_option autoImplicit false

namespace Netstar.Lib.ChunkedCoding

/-- The carriage return. -/
def cr : UInt8 := 13

/-- The line feed. -/
def lf : UInt8 := 10

/-- The line break. -/
def crlf : List UInt8 := [cr, lf]

/-! ### The encoder -/

/-- A hexadecimal digit. -/
def hexDigit (d : Nat) : UInt8 := d.digitChar.toNat.toUInt8

/-- A number in hexadecimal digits, without leading zeros. -/
def hex (n : Nat) : List UInt8 := (Nat.toDigits 16 n).map fun c => c.toNat.toUInt8

/-- One chunk: its size in hexadecimal digits, its bytes, and a line end after each. -/
def encodeChunk (chunk : List UInt8) : List UInt8 := hex chunk.length ++ crlf ++ (chunk ++ crlf)

/-- The last chunk and the empty line. -/
def lastChunk : List UInt8 := hex 0 ++ crlf ++ crlf

/-- The chunks, one after the other, and the empty one that ends them. -/
def encode (chunks : List (List UInt8)) : List UInt8 := chunks.flatMap encodeChunk ++ lastChunk

/-! ### The decoder -/

/-- The value of a hexadecimal digit. -/
def hexValue (b : UInt8) : Option Nat :=
  if 48 ≤ b ∧ b ≤ 57 then some (b.toNat - 48)
  else if 97 ≤ b ∧ b ≤ 102 then some (b.toNat - 87)
  else if 65 ≤ b ∧ b ≤ 70 then some (b.toNat - 55)
  else none

/-- What a decoder expects. `size` says whether there was a digit, and the number so far. -/
inductive Phase where
  | size (digits : Bool) (n : Nat)
  | sizeLf (n : Nat)
  | data (left : Nat)
  | dataCr
  | dataLf
  | lastCr
  | lastLf
  | finished
  deriving DecidableEq, Repr

/-- A decoder, with the chunk that it reads and the chunks that it has read. -/
structure Decoder where
  phase : Phase
  current : List UInt8
  chunks : List (List UInt8)
  deriving DecidableEq, Repr

/-- A decoder at the beginning of a chunk. -/
def Decoder.start (chunks : List (List UInt8)) : Decoder := ⟨.size false 0, [], chunks⟩

/-- The decoder reads a byte. -/
def Decoder.step (d : Decoder) (b : UInt8) : Option Decoder :=
  match d.phase with
  | .size digits n =>
    if b = cr then if digits then some { d with phase := .sizeLf n } else none
    else (hexValue b).map fun v => { d with phase := .size true (16 * n + v) }
  | .sizeLf n =>
    if b = lf then some { d with phase := if n = 0 then .lastCr else .data n } else none
  | .data left =>
    some { d with
      phase := if left = 1 then .dataCr else .data (left - 1)
      current := d.current ++ [b] }
  | .dataCr => if b = cr then some { d with phase := .dataLf } else none
  | .dataLf => if b = lf then some (.start (d.chunks ++ [d.current])) else none
  | .lastCr => if b = cr then some { d with phase := .lastLf } else none
  | .lastLf => if b = lf then some { d with phase := .finished } else none
  | .finished => none

/-- The chunks of an input that ends with the last chunk and its empty line. -/
def decode (input : List UInt8) : Option (List (List UInt8)) :=
  match run Decoder.step (.start []) input with
  | some ⟨.finished, _, chunks⟩ => some chunks
  | _ => none

/-! ### Numbers -/

/-- A hexadecimal digit is read back. -/
theorem hexValue_hexDigit : ∀ d < 16, hexValue (hexDigit d) = some d := by decide

/-- No hexadecimal digit is a carriage return. -/
theorem hexDigit_ne_cr : ∀ d < 16, hexDigit d ≠ cr := by decide

/-- The digits before the last one are those of the quotient. -/
theorem hex_of_le {n : Nat} (h : 16 ≤ n) : hex n = hex (n / 16) ++ [hexDigit (n % 16)] := by
  rw [hex, Nat.toDigits_of_base_le (by decide) h, List.map_append]
  rfl

/-- A number under 16 is one digit. -/
theorem hex_of_lt {n : Nat} (h : n < 16) : hex n = [hexDigit n] := by
  rw [hex, Nat.toDigits_of_lt_base h]
  rfl

/-- The decoder reads a digit. -/
theorem step_digit {digits : Bool} {n d : Nat} {current : List UInt8} {chunks : List (List UInt8)}
    (h : d < 16) :
    Decoder.step ⟨.size digits n, current, chunks⟩ (hexDigit d) =
      some ⟨.size true (16 * n + d), current, chunks⟩ := by
  simp only [Decoder.step, if_neg (hexDigit_ne_cr d h), hexValue_hexDigit d h, Option.map_some]

/-- The decoder reads a number. The induction follows the digits from the last one on. -/
theorem run_hex (n : Nat) (chunks : List (List UInt8)) :
    run Decoder.step (.start chunks) (hex n) = some ⟨.size true n, [], chunks⟩ := by
  induction n using Nat.strongRecOn with
  | ind n ih =>
    rcases Nat.lt_or_ge n 16 with hlt | hge
    · rw [hex_of_lt hlt, run_cons]
      exact ⟨_, step_digit hlt, by rw [run, Nat.mul_zero, Nat.zero_add]⟩
    · have hdigit : n % 16 < 16 := Nat.mod_lt n (by decide)
      have hquotient := ih (n / 16) (by omega)
      rw [hex_of_le hge, run_append]
      refine ⟨_, hquotient, run_cons.mpr ⟨_, step_digit hdigit, ?_⟩⟩
      rw [run, Nat.div_add_mod]

/-! ### Chunks -/

/-- The decoder reads the size line of a chunk. -/
theorem run_size {n : Nat} (h : n ≠ 0) (chunks : List (List UInt8)) :
    run Decoder.step (.start chunks) (hex n ++ crlf) = some ⟨.data n, [], chunks⟩ := by
  rw [run_append]
  refine ⟨_, run_hex n chunks, ?_⟩
  simp [crlf, run, Decoder.step, h, cr, lf]

/-- The decoder reads the bytes of a chunk. -/
theorem run_data {data : List UInt8} (h : data ≠ []) (current : List UInt8)
    (chunks : List (List UInt8)) :
    run Decoder.step ⟨.data data.length, current, chunks⟩ data =
      some ⟨.dataCr, current ++ data, chunks⟩ := by
  induction data generalizing current with
  | nil => exact absurd rfl h
  | cons b data ih =>
    rw [run_cons]
    refine ⟨_, rfl, ?_⟩
    cases data with
    | nil => rfl
    | cons c data =>
      have hnext := ih (List.cons_ne_nil c data) (current ++ [b])
      rw [List.append_assoc] at hnext
      exact hnext

/-- The decoder reads one chunk back. -/
theorem run_encodeChunk {chunk : List UInt8} (h : chunk ≠ []) (chunks : List (List UInt8)) :
    run Decoder.step (.start chunks) (encodeChunk chunk) = some (.start (chunks ++ [chunk])) := by
  have hlength : chunk.length ≠ 0 := by simpa using h
  rw [encodeChunk, run_append]
  refine ⟨_, run_size hlength chunks, ?_⟩
  rw [run_append]
  exact ⟨_, run_data h [] chunks, rfl⟩

/-- The decoder reads the chunks back, one after the other. -/
theorem run_chunks {cs : List (List UInt8)} (h : ∀ c ∈ cs, c ≠ []) (chunks : List (List UInt8)) :
    run Decoder.step (.start chunks) (cs.flatMap encodeChunk) = some (.start (chunks ++ cs)) := by
  induction cs generalizing chunks with
  | nil => simp [run]
  | cons c cs ih =>
    rw [List.flatMap_cons, run_append]
    refine ⟨_, run_encodeChunk (h c List.mem_cons_self) chunks, ?_⟩
    rw [ih (fun c' hc' => h c' (List.mem_cons_of_mem c hc')), List.append_assoc]
    rfl

/-- What was encoded is decoded to the same chunks, if none of them is empty. -/
theorem decode_encode {cs : List (List UInt8)} (h : ∀ c ∈ cs, c ≠ []) :
    decode (encode cs) = some cs := by
  have hrun : run Decoder.step (.start []) (encode cs) = some ⟨.finished, [], cs⟩ := by
    rw [encode, run_append]
    refine ⟨_, run_chunks h [], ?_⟩
    rfl
  rw [decode, hrun]

end Netstar.Lib.ChunkedCoding
