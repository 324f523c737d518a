import Netstar.Lib.Run

/-!
# `Netstar.Spec.Core.SharedMutex`: the shared mutex

`_readers` is an `unsigned`, 32 bits wide. A promise in `_waiters` is the number of the call that
returned its future. A call that could not wait has a ready future.

`Session` keeps what the callers know: `arrived`, the requests in the order of the calls, `granted`,
those whose futures became ready, in that order, and `held`, the granted ones that the callers have
not unlocked yet. An unlock names the granted request that it ends.
-/

set_option autoImplicit false

namespace Netstar.Spec.Core

/-- `shared_mutex::waiter`. -/
structure Waiter where
  pr : Nat
  forWrite : Bool
  deriving DecidableEq, Repr

/-- `shared_mutex`. -/
structure SharedMutex where
  readers : UInt32
  writer : Bool
  waiters : List Waiter
  deriving DecidableEq, Repr

namespace SharedMutex

/-- `shared_mutex()`. -/
def create : SharedMutex := ⟨0, false, []⟩

/-- The loop of `wake`, with the waiters whose promises it sets. -/
def wakeLoop (readers : UInt32) (writer : Bool) : List Waiter → SharedMutex × List Waiter
  | [] => (⟨readers, writer, []⟩, [])
  | w :: ws =>
    if w.forWrite then
      if readers = 0 then (⟨readers, true, ws⟩, [w]) else (⟨readers, writer, w :: ws⟩, [])
    else
      let (m, woken) := wakeLoop (readers + 1) writer ws
      (m, w :: woken)

/-- `wake`. -/
def wake (m : SharedMutex) : SharedMutex × List Waiter := wakeLoop m.readers m.writer m.waiters

/-- `lock_shared`. The call `pr` returns a ready future if the second component is `true`. -/
def lockShared (m : SharedMutex) (pr : Nat) : SharedMutex × Bool :=
  if !m.writer && m.waiters.isEmpty then ({ m with readers := m.readers + 1 }, true)
  else ({ m with waiters := m.waiters ++ [⟨pr, false⟩] }, false)

/-- `unlock_shared`. -/
def unlockShared (m : SharedMutex) : SharedMutex × List Waiter :=
  wake { m with readers := m.readers - 1 }

/-- `lock`. -/
def lock (m : SharedMutex) (pr : Nat) : SharedMutex × Bool :=
  if m.readers = 0 && !m.writer then ({ m with writer := true }, true)
  else ({ m with waiters := m.waiters ++ [⟨pr, true⟩] }, false)

/-- `unlock`. -/
def unlock (m : SharedMutex) : SharedMutex × List Waiter := wake { m with writer := false }

/-- The calls. An unlock names the request that it ends. -/
inductive Call where
  | lock
  | unlock (pr : Nat)
  | lockShared
  | unlockShared (pr : Nat)
  deriving DecidableEq, Repr

/-- A shared mutex and what its callers know. -/
structure Session where
  mutex : SharedMutex
  arrived : List Waiter
  granted : List Waiter
  held : List Waiter
  deriving DecidableEq, Repr

namespace Session

/-- A shared mutex before the first call. -/
def create : Session := ⟨SharedMutex.create, [], [], []⟩

/-- The request `w` arrives, and `m` is the mutex after it. -/
def arrive (s : Session) (w : Waiter) (m : SharedMutex) (ready : Bool) : Session where
  mutex := m
  arrived := s.arrived ++ [w]
  granted := if ready then s.granted ++ [w] else s.granted
  held := if ready then s.held ++ [w] else s.held

/-- The request `w` is unlocked, and `m` is the mutex after it. -/
def release (s : Session) (w : Waiter) (m : SharedMutex) (woken : List Waiter) : Session where
  mutex := m
  arrived := s.arrived
  granted := s.granted ++ woken
  held := s.held.erase w ++ woken

/-- One call. An unlock is possible only for a request that is held. -/
def step (s : Session) : Call → Option Session
  | .lock =>
    let (m, ready) := s.mutex.lock s.arrived.length
    some (s.arrive ⟨s.arrived.length, true⟩ m ready)
  | .lockShared =>
    let (m, ready) := s.mutex.lockShared s.arrived.length
    some (s.arrive ⟨s.arrived.length, false⟩ m ready)
  | .unlock pr =>
    if ⟨pr, true⟩ ∈ s.held then
      let (m, woken) := s.mutex.unlock
      some (s.release ⟨pr, true⟩ m woken)
    else none
  | .unlockShared pr =>
    if ⟨pr, false⟩ ∈ s.held then
      let (m, woken) := s.mutex.unlockShared
      some (s.release ⟨pr, false⟩ m woken)
    else none

end Session

end SharedMutex

end Netstar.Spec.Core
