import Mathlib.Algebra.Order.Ring.Int
import Netstar.Spec.Net.PacketUtil

/-!
# `Netstar.Spec.Net.Tcp`: sequence numbers and headers of `net/tcp.hh`

`tcp_seq` wraps a `uint32_t`. The difference of two sequence numbers is the 32-bit difference
read as a signed number, and every comparison goes through it. `tcp_hdr::read` decodes the
fixed part of a TCP header. The model keeps the fields that the preprocessors read.
-/

set_option autoImplicit false

namespace Netstar.Spec.Net

/-- `tcp_seq`. -/
structure TcpSeq where
  raw : BitVec 32
  deriving DecidableEq, Repr

namespace TcpSeq

/-- `operator+(tcp_seq, int32_t)`. The source converts every argument to `int32_t`, which keeps
its residue modulo `2^32`. -/
def add (s : TcpSeq) (n : Int) : TcpSeq := ⟨s.raw + BitVec.ofInt 32 n⟩

/-- `operator-(tcp_seq, tcp_seq)`, an `int32_t`. -/
def sub (s q : TcpSeq) : Int := (s.raw - q.raw).toInt

/-- `operator<`. -/
def lt (s q : TcpSeq) : Bool := decide (s.sub q < 0)

/-- `operator<=`, which is `!(s > q)`. -/
def le (s q : TcpSeq) : Bool := !q.lt s

end TcpSeq

/-- `tcp_packet_merger`: `packet_merger` over `tcp_seq`. -/
instance : MergeOffset TcpSeq where
  lt := TcpSeq.lt
  advance s n := s.add n
  distance := TcpSeq.sub

/-- `read_be<uint32_t>(p + i)`. -/
def readBe32 (p : List UInt8) (i : Nat) : BitVec 32 :=
  let byte := fun j => (p.getD (i + j) 0).toNat
  BitVec.ofNat 32 (byte 0 * 2 ^ 24 + byte 1 * 2 ^ 16 + byte 2 * 2 ^ 8 + byte 3)

/-- The fields of `tcp_hdr` that the preprocessors use. -/
structure TcpHdr where
  seq : TcpSeq
  dataOffset : Nat
  fSyn : Bool
  fRst : Bool
  deriving DecidableEq, Repr

namespace TcpHdr

/-- `tcp_hdr::len`. -/
def len : Nat := 20

/-- `tcp_hdr::read`. -/
def read (p : List UInt8) : TcpHdr where
  seq := ⟨readBe32 p 4⟩
  dataOffset := (p.getD 12 0).toNat / 16
  fSyn := (p.getD 13 0).toNat / 2 % 2 = 1
  fRst := (p.getD 13 0).toNat / 4 % 2 = 1

end TcpHdr

end Netstar.Spec.Net
