import Netstar.Spec.Net.Forward

/-!
# `Netstar.Spec.Mica.QueueMapping`: ports that lead to queues

A client core talks to a server core through a pair of UDP ports. The network cards choose the queues
by a hash of the addresses and ports, so `do_calculate_queue_mapping` searches for ports that lead to
each pair of queues. It takes the port pairs in order and stops when a counter of open cells is zero.

The card of the client is a parameter: `hash2cpu` is its map from hashes to queues. A vector of vectors
is a list of rows.
-/

set_option autoImplicit false

namespace Netstar.Spec.Mica

open Netstar.Spec.Net

/-- `port_pair`. -/
structure PortPair where
  localPort : Nat
  remotePort : Nat
  deriving DecidableEq, Repr

namespace QueueMapping

/-- `default_rsskey_52bytes`. -/
def defaultRsskey52bytes : List UInt8 :=
  [0x44, 0x39, 0x79, 0x6b, 0xb5, 0x4c, 0x50, 0x23,
   0xb6, 0x75, 0xea, 0x5b, 0x12, 0x4f, 0x9f, 0x30,
   0xb8, 0xa2, 0xc0, 0x3d, 0xdf, 0xdc, 0x4d, 0x02,
   0xa0, 0x8c, 0x9b, 0x33, 0x4a, 0xf6, 0x4a, 0x4c,
   0x05, 0xc6, 0xfa, 0x34, 0x39, 0x58, 0xd8, 0x55,
   0x7d, 0x99, 0x58, 0x3a, 0xe1, 0x38, 0xc9, 0x2e,
   0x81, 0x15, 0x03, 0x66]

/-- The arguments of `do_calculate_queue_mapping`, `smp::count`, and the port `pt`. -/
structure Args where
  localSmpCount : Nat
  remoteSmpCount : Nat
  localIpAddr : Nat
  remoteIpAddr : Nat
  smpCount : Nat
  ptRssKey : List UInt8
  hash2cpu : BitVec 32 → Nat

namespace Args

/-- `rss_key`. -/
def rssKey (a : Args) : List UInt8 := if a.smpCount = 1 then defaultRsskey52bytes else a.ptRssKey

/-- The local queue of a packet with this hash. -/
def hashToQueue (a : Args) (hash : BitVec 32) : Nat := if a.smpCount = 1 then 0 else a.hash2cpu hash

end Args

/-- The ways in which the search stops the program. -/
inductive MappingError where
  /-- `i++ % remote_smp_count` for no remote core. -/
  | divisionByZero
  /-- An index into `res` or `res_pos_flag` is out of range. -/
  | index
  /-- "Fail to find a valid queue mapping." -/
  | noMapping
  deriving DecidableEq, Repr

/-- The element of a vector of vectors. -/
def cell {α : Type} (m : List (List α)) (x y : Nat) : Option α := m[x]?.bind fun row => row[y]?

/-- Writes an element of a vector of vectors. -/
def setCell {α : Type} (m : List (List α)) (x y : Nat) (v : α) : List (List α) :=
  m.modify x fun row => row.set y v

/-- `remote_redir_table`. Its elements have 8 bits. -/
def remoteRedirTable (remoteSmpCount : Nat) : List Nat :=
  (List.range 512).map fun i => i % remoteSmpCount % 256

/-- The local variables of the search. -/
structure Search where
  total : BitVec 32
  resPosFlag : List (List Bool)
  res : List (List PortPair)

/-- `local_queue`. -/
def localQueue (a : Args) (p : PortPair) : Nat :=
  a.hashToQueue ((L4ConnId.mk a.localIpAddr a.remoteIpAddr p.localPort p.remotePort).hash a.rssKey)

/-- `remote_queue`. The table has 512 elements, so the mask is 511. -/
def remoteQueue (a : Args) (p : PortPair) : Nat :=
  (remoteRedirTable a.remoteSmpCount).getD
    (((L4ConnId.mk a.remoteIpAddr a.localIpAddr p.remotePort p.localPort).hash a.rssKey).toNat % 512) 0

/-- The body of the loops, up to the test of `total`. -/
def visit (a : Args) (s : Search) (p : PortPair) : Except MappingError Search :=
  match cell s.resPosFlag (localQueue a p) (remoteQueue a p), cell s.res (localQueue a p) (remoteQueue a p) with
  | some false, some _ =>
    .ok ⟨s.total - 1, setCell s.resPosFlag (localQueue a p) (remoteQueue a p) true,
      setCell s.res (localQueue a p) (remoteQueue a p) p⟩
  | some true, _ => .ok s
  | _, _ => .error .index

/-- The local variables before the loops. -/
def init (a : Args) : Search where
  total := BitVec.ofNat 32 (a.localSmpCount * a.remoteSmpCount)
  resPosFlag := List.replicate a.localSmpCount (List.replicate a.remoteSmpCount false)
  res := List.replicate a.localSmpCount (List.replicate a.remoteSmpCount ⟨0, 0⟩)

end QueueMapping

end Netstar.Spec.Mica
