import Mathlib.Logic.Function.Basic

/-!
# `Netstar.Spec.Net.Arp`: the address table of `arp_for`

`arp_for` of `net/arp.hh` keeps the hardware addresses that it knows in `_table`, and the lookups that
wait for an answer in `_in_progress`. An entry of `_in_progress` has a timer that fires every second as
long as the entry is there. The only protocol that the repository resolves is IPv4.

`Session` numbers the lookups in the order they arrive and logs how each future is resolved. It also
keeps the hardware address that was last given to `arp_for` for each protocol address: by its
constructor, by `set_self_addr` or by `learn`.
-/

set_option autoImplicit false

namespace Netstar.Spec.Net

/-- `ipv4_address`. -/
abbrev L3Addr := UInt32

/-- `ethernet_address`, the first byte in front. -/
abbrev L2Addr := BitVec 48

/-- `L3::broadcast_address()`. -/
def l3Broadcast : L3Addr := 0xffffffff

/-- `ethernet::broadcast_address()`. -/
def etherBroadcast : L2Addr := 0xffffffffffff

/-- The protocol address and the hardware address that `set_self_addr` adds for two hosts. -/
def fixedPeer (addr : L3Addr) : Option (L3Addr × L2Addr) :=
  -- 10.10.0.1 and 10.10.0.3
  if addr = 0x0a0a0001 then some (0x0a0a0003, 0x3cfdfe060960)
  else if addr = 0x0a0a0003 then some (0x0a0a0001, 0x3cfdfe060962)
  else none

/-- A promise in `_waiters` is the number of its lookup. The queries are those for `_packetq`. -/
structure ArpFor where
  l3self : L3Addr
  table : L3Addr → Option L2Addr
  inProgress : L3Addr → Option (List Nat)
  queries : List L3Addr

/-- The exceptions that a waiting call can get. -/
inductive ArpError where
  /-- "ARP timeout" -/
  | timeout
  /-- "ARP waiter's queue is full" -/
  | queueFull
  deriving DecidableEq, Repr

/-- How a future is resolved. -/
abbrev ArpAnswer := Except ArpError L2Addr

namespace ArpFor

/-- `max_waiters`. -/
def maxWaiters : Nat := 512

/-- The layer before any call. -/
def create : ArpFor where
  l3self := l3Broadcast
  table := Function.update (fun _ => none) l3Broadcast (some etherBroadcast)
  inProgress := fun _ => none
  queries := []

/-- The lookups that wait for the address. -/
def waiters (s : ArpFor) (addr : L3Addr) : List Nat := (s.inProgress addr).getD []

/-- The first request for an address makes its entry, starts the timer and sends a query. -/
def openEntry (s : ArpFor) (paddr : L3Addr) : ArpFor :=
  match s.inProgress paddr with
  | some _ => s
  | none =>
    { s with
      inProgress := Function.update s.inProgress paddr (some [])
      queries := s.queries ++ [paddr] }

/-- `lookup`. The future of the promise is returned ready with an answer, or it waits. -/
def lookup (s : ArpFor) (promise : Nat) (paddr : L3Addr) : ArpFor × Option ArpAnswer :=
  match s.table paddr with
  | some hw => (s, some (.ok hw))
  | none =>
    let s := s.openEntry paddr
    let waiters := s.waiters paddr
    if waiters.length ≥ maxWaiters then (s, some (.error .queueFull))
    else
      ({ s with inProgress := Function.update s.inProgress paddr (some (waiters ++ [promise])) },
        none)

/-- `learn`, with the promises that get the address. -/
def learn (s : ArpFor) (hwaddr : L2Addr) (paddr : L3Addr) : ArpFor × List Nat :=
  let promises := s.waiters paddr
  ({ s with
      table := Function.update s.table paddr (some hwaddr)
      inProgress := Function.update s.inProgress paddr none },
    promises)

/-- `set_self_addr` on an interface with the hardware address `l2self`. -/
def setSelfAddr (l2self : L2Addr) (s : ArpFor) (addr : L3Addr) : ArpFor :=
  let table := Function.update s.table s.l3self none
  let table := Function.update table addr (some l2self)
  let table :=
    match fixedPeer addr with
    | some (ip, mac) => Function.update table ip (some mac)
    | none => table
  { s with table := table, l3self := addr }

/-- The timer of an entry fires. The promises get the timeout. -/
def timeout (s : ArpFor) (paddr : L3Addr) : Option (ArpFor × List Nat) :=
  (s.inProgress paddr).map fun promises =>
    ({ s with
        inProgress := Function.update s.inProgress paddr (some [])
        queries := s.queries ++ [paddr] },
      promises)

end ArpFor

/-- A future that was resolved: its lookup, its answer, and what was last given to `arp_for` for the
address of the lookup. -/
structure ArpResolved where
  call : Nat
  answer : ArpAnswer
  lastLearned : Option L2Addr

/-- The addresses of the lookups are in `asked`, in order. -/
structure ArpSession where
  arp : ArpFor
  asked : List L3Addr
  learned : L3Addr → Option L2Addr
  log : List ArpResolved

/-- The calls from outside and the packets of the network. -/
inductive ArpCall where
  | lookup (paddr : L3Addr)
  | learn (hwaddr : L2Addr) (paddr : L3Addr)
  | setSelfAddr (addr : L3Addr)
  | timeout (paddr : L3Addr)
  deriving DecidableEq, Repr

namespace ArpSession

/-- A session before any call. -/
def create : ArpSession := ⟨.create, [], ArpFor.create.table, []⟩

/-- The promises are resolved with the same answer. -/
def resolve (s : ArpSession) (promises : List Nat) (answer : ArpAnswer) : ArpSession :=
  { s with
    log := s.log ++ promises.map fun k => ⟨k, answer, s.asked[k]?.bind s.learned⟩ }

/-- What `set_self_addr` gives to `arp_for`. -/
def learnSelf (learned : L3Addr → Option L2Addr) (l2self : L2Addr) (addr : L3Addr) :
    L3Addr → Option L2Addr :=
  let learned := Function.update learned addr (some l2self)
  match fixedPeer addr with
  | some (ip, mac) => Function.update learned ip (some mac)
  | none => learned

/-- One call of a session. -/
def step (l2self : L2Addr) (s : ArpSession) : ArpCall → Option ArpSession
  | .lookup paddr =>
    let k := s.asked.length
    let s := { s with asked := s.asked ++ [paddr] }
    match s.arp.lookup k paddr with
    | (arp, some answer) => some ({ s with arp }.resolve [k] answer)
    | (arp, none) => some { s with arp }
  | .learn hwaddr paddr =>
    let (arp, promises) := s.arp.learn hwaddr paddr
    let learned := Function.update s.learned paddr (some hwaddr)
    some ({ s with arp, learned }.resolve promises (.ok hwaddr))
  | .setSelfAddr addr =>
    some { s with
      arp := s.arp.setSelfAddr l2self addr
      learned := learnSelf s.learned l2self addr }
  | .timeout paddr =>
    (s.arp.timeout paddr).map fun (arp, promises) =>
      { s with arp }.resolve promises (.error .timeout)

end ArpSession

end Netstar.Spec.Net
