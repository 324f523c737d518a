import Netstar.Lib.BitWindow
import Netstar.Spec.Net.Tcp

/-!
# `Netstar.Spec.Net.Toeplitz`: `toeplitz_hash` of `net/toeplitz.hh`

`toeplitz_hash` shifts a 32-bit window over the bits of the key, and adds the window to the hash
at the set bits of the data. The counter `i` is a `u_int` of 32 bits, while `data.size()` and
`key.size()` are `size_t`. So `i + 4` wraps at `2^32`, and the loop does not end when the data is
too long. The loop of the model has fuel, and `Returns` says that some fuel is enough.

`toeplitzDef` is the bitwise definition that the hash is compared with.
-/

set_option autoImplicit false

namespace Netstar.Spec.Net

open Netstar.Lib

/-- An `rss_key_type` with the four bytes that `toeplitz_hash` reads without a check. -/
structure RssKey where
  bytes : List UInt8
  four_le : 4 ≤ bytes.length

/-- One round of the inner loop of `toeplitz_hash`, on `hash` and `v`. -/
def toeplitzRound (key : RssKey) (data : List UInt8) (i : BitVec 32)
    (st : BitVec 32 × BitVec 32) (b : Nat) : BitVec 32 × BitVec 32 :=
  let (hash, v) := st
  let hash := if (data.getD i.toNat 0).toNat.testBit (7 - b) then hash ^^^ v else hash
  let v := v <<< 1
  let next := (i + 4).toNat
  (hash,
    if next < key.bytes.length ∧ (key.bytes.getD next 0).toNat.testBit (7 - b) then v ||| 1 else v)

/-- The outer loop of `toeplitz_hash` from the counter `i` on. `none` means that the loop is still
running when the fuel is spent. -/
def toeplitzLoop (key : RssKey) (data : List UInt8) :
    Nat → BitVec 32 → BitVec 32 × BitVec 32 → Option (BitVec 32)
  | 0, _, _ => none
  | fuel + 1, i, st =>
    if i.toNat < data.length then
      toeplitzLoop key data fuel (i + 1) ((List.range 8).foldl (toeplitzRound key data i) st)
    else
      some st.1

/-- `toeplitz_hash(key, data)` ends with the hash `h`. -/
def ToeplitzReturns (key : RssKey) (data : List UInt8) (h : BitVec 32) : Prop :=
  ∃ fuel, toeplitzLoop key data fuel 0 (0, readBe32 key.bytes 0) = some h

/-- Bit `n` of a byte string, from the top bit of its first byte on, and zero past its end. -/
def bitAt (bytes : List UInt8) (n : Nat) : Bool := (bytes.getD (n / 8) 0).toNat.testBit (7 - n % 8)

/-- The bitwise definition: the exclusive or, over the set bits of the data, of the 32 key bits
from that bit on. -/
def toeplitzDef (key : RssKey) (data : List UInt8) : BitVec 32 :=
  xorWindows 32 (bitAt key.bytes) (bitAt data) (8 * data.length)

/-- The exclusive or of two byte strings. -/
def xorBytes (x y : List UInt8) : List UInt8 := List.zipWith (· ^^^ ·) x y

/-- `toeplitz_hash` under the key computes the definition on all data of a length, and it is
linear there. -/
def ToeplitzRight (key : RssKey) (length : Nat) : Prop :=
  (∀ data, data.length = length → ToeplitzReturns key data (toeplitzDef key data)) ∧
  ∀ x y, x.length = length → y.length = length →
    ∃ hx hy, ToeplitzReturns key x hx ∧ ToeplitzReturns key y hy ∧
      ToeplitzReturns key (xorBytes x y) (hx ^^^ hy)

end Netstar.Spec.Net
