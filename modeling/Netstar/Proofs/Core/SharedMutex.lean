import Mathlib.Algebra.Order.Ring.Int
import Mathlib.Data.List.Count
import Netstar.Spec.Core.SharedMutex

/-!
# `Netstar.Proofs.Core.SharedMutex`: exclusion and order of the shared mutex

`Accounts` says that the two fields of the mutex count the requests that are held. `Settled` says why
the first waiter waits: somebody writes, or it is a writer and somebody reads. Both are kept by
`wake` and by the fast paths of `lock` and `lock_shared`, as long as the 32 bits of `_readers` do not
wrap. `SharedFits` is that condition. With 2^32 readers the counter is zero again, and a writer gets
the mutex beside them.
-/

set_option autoImplicit false

namespace Netstar.Proofs.Core.SharedMutex

open Netstar.Lib
open Netstar.Spec.Core
open Netstar.Spec.Core.SharedMutex

/-- What the callers rely on. -/
structure Correct (s : Session) : Prop where
  exclusive : ∀ w ∈ s.held, w.forWrite = true → s.held = [w]
  waitersWhileHeld : s.mutex.waiters ≠ [] → s.held ≠ []
  inOrder : s.granted ++ s.mutex.waiters = s.arrived
  writerFirst : (∀ w ∈ s.held, w.forWrite = false) →
    ∀ w ∈ s.mutex.waiters.head?, w.forWrite = true

/-- The readers in a list of requests. -/
def sharedCount (ws : List Waiter) : Nat := ws.countP fun w => !w.forWrite

/-- The step does not bring the number of shared holders to `2 ^ 32`. -/
def SharedFits (s : Session) : Call → Prop
  | .lockShared => s.mutex.waiters = [] → sharedCount s.held + 1 < 2 ^ 32
  | .unlock _ => (s.mutex.waiters.takeWhile fun w => !w.forWrite).length < 2 ^ 32
  | .lock => True
  | .unlockShared _ => True

/-- The fields of the mutex count the requests that are held. -/
structure Accounts (readers : UInt32) (writer : Bool) (held : List Waiter) : Prop where
  shared : readers.toNat = sharedCount held
  writers : held.countP (·.forWrite) = writer.toNat
  exclusive : writer = true → readers = 0

/-- The first waiter has a reason to wait. -/
def Settled (m : SharedMutex) : Prop :=
  ∀ w ∈ m.waiters.head?, m.writer = true ∨ (w.forWrite = true ∧ m.readers ≠ 0)

/-- The invariant of a session. -/
structure Inv (s : Session) : Prop where
  accounts : Accounts s.mutex.readers s.mutex.writer s.held
  settled : Settled s.mutex
  order : s.granted ++ s.mutex.waiters = s.arrived

/-! ### Holders -/

section Accounts

variable {readers : UInt32} {writer : Bool} {held : List Waiter}

/-- The readers of two lists. -/
@[simp] theorem sharedCount_append (ws ws' : List Waiter) :
    sharedCount (ws ++ ws') = sharedCount ws + sharedCount ws' := List.countP_append

/-- One more reader, while the counter has room. -/
theorem Accounts.addReader (h : Accounts readers false held) (hfits : sharedCount held + 1 < 2 ^ 32)
    {w : Waiter} (hw : w.forWrite = false) : Accounts (readers + 1) false (held ++ [w]) where
  shared := by
    have hr := h.shared
    rw [UInt32.toNat_add, sharedCount_append, hr]
    simp only [sharedCount, List.countP_singleton, hw] at hfits ⊢
    simp only [UInt32.toNat_one, Bool.not_false, if_true]
    omega
  writers := by
    rw [List.countP_append, h.writers]
    simp [hw]
  exclusive := fun hwriter => nomatch hwriter

/-- A writer, while nobody holds the mutex. -/
theorem Accounts.addWriter (h : Accounts readers false held) (hreaders : readers = 0) {w : Waiter}
    (hw : w.forWrite = true) : Accounts readers true (held ++ [w]) where
  shared := by
    rw [h.shared, sharedCount_append]
    simp [sharedCount, hw]
  writers := by
    rw [List.countP_append, h.writers]
    simp [hw]
  exclusive := fun _ => hreaders

/-- A held reader excludes the writer. -/
theorem Accounts.noWriter (h : Accounts readers writer held) {w : Waiter} (hmem : w ∈ held)
    (hw : w.forWrite = false) : 0 < sharedCount held ∧ writer = false := by
  have hpos : 0 < sharedCount held := List.countP_pos_iff.mpr ⟨w, hmem, by simp [hw]⟩
  cases hcase : writer with
  | false => exact ⟨hpos, rfl⟩
  | true =>
    have hzero := h.shared
    rw [h.exclusive hcase] at hzero
    exact absurd hpos (by rw [← hzero]; decide)

/-- A held reader goes away. -/
theorem Accounts.removeReader (h : Accounts readers writer held) {w : Waiter} (hmem : w ∈ held)
    (hw : w.forWrite = false) : Accounts (readers - 1) false (held.erase w) := by
  obtain ⟨hpos, rfl⟩ := h.noWriter hmem hw
  have hr := h.shared
  constructor
  · have hle : (1 : UInt32) ≤ readers := UInt32.le_iff_toNat_le.mpr (by rw [hr]; exact hpos)
    rw [UInt32.toNat_sub_of_le _ _ hle, hr, sharedCount, sharedCount, List.countP_erase]
    simp [hmem, hw]
  · rw [List.countP_erase, h.writers]
    simp [hw]
  · exact fun hfalse => nomatch hfalse

/-- The held writer goes away. -/
theorem Accounts.removeWriter (h : Accounts readers writer held) {w : Waiter} (hmem : w ∈ held)
    (hw : w.forWrite = true) : Accounts readers false (held.erase w) ∧ readers = 0 := by
  have hpos : 0 < held.countP (·.forWrite) := List.countP_pos_iff.mpr ⟨w, hmem, hw⟩
  have hwriter : writer = true := by
    cases hcase : writer with
    | false =>
      rw [h.writers, hcase] at hpos
      exact absurd hpos (by decide)
    | true => rfl
  subst hwriter
  refine ⟨⟨?_, ?_, fun hfalse => nomatch hfalse⟩, h.exclusive rfl⟩
  · rw [h.shared, sharedCount, sharedCount, List.countP_erase]
    simp [hw]
  · rw [List.countP_erase, h.writers]
    simp [hmem, hw]

end Accounts

/-! ### Waking -/

/-- `wake` passes the waiters on in their order, and stops where the next one has to wait. -/
structure Woken (held waiters : List Waiter) (r : SharedMutex × List Waiter) : Prop where
  accounts : Accounts r.1.readers r.1.writer (held ++ r.2)
  settled : Settled r.1
  order : r.2 ++ r.1.waiters = waiters

/-- `wake` grants a writer, or all readers before the next writer. -/
theorem wakeLoop_woken {readers : UInt32} {held : List Waiter} {waiters : List Waiter}
    (h : Accounts readers false held)
    (hfits : sharedCount held + (waiters.takeWhile fun w => !w.forWrite).length < 2 ^ 32) :
    Woken held waiters (wakeLoop readers false waiters) := by
  induction waiters generalizing readers held with
  | nil =>
    exact ⟨by simpa [wakeLoop] using h, fun w hw => by simp [wakeLoop] at hw, by simp [wakeLoop]⟩
  | cons w ws ih =>
    cases hw : w.forWrite with
    | true =>
      by_cases hzero : readers = 0
      · -- The writer gets the mutex, and the loop stops whatever comes next.
        rw [wakeLoop, if_pos hw, if_pos hzero]
        exact ⟨h.addWriter hzero hw, fun w' _ => .inl rfl, rfl⟩
      · rw [wakeLoop, if_pos hw, if_neg hzero]
        refine ⟨by simpa using h, fun w' hw' => ?_, rfl⟩
        obtain rfl : w = w' := by simpa using hw'
        exact .inr ⟨hw, hzero⟩
    | false =>
      have hnext : sharedCount held + 1 + (ws.takeWhile fun w => !w.forWrite).length < 2 ^ 32 := by
        simp only [List.takeWhile_cons, hw, Bool.not_false, if_true, List.length_cons] at hfits
        omega
      have hcount : sharedCount (held ++ [w]) = sharedCount held + 1 := by
        simp [sharedCount, hw]
      have hrest := ih (h.addReader (by omega) hw) (by rw [hcount]; exact hnext)
      rw [wakeLoop, if_neg (by simp [hw])]
      refine ⟨?_, hrest.settled, ?_⟩
      · have haccounts := hrest.accounts
        rwa [List.append_assoc] at haccounts
      · show w :: ((wakeLoop (readers + 1) false ws).2 ++ _) = w :: ws
        rw [hrest.order]

/-! ### Steps -/

/-- A new mutex is free. -/
theorem Inv.create : Inv Session.create where
  accounts := ⟨by decide, by decide, fun _ => rfl⟩
  settled := fun w hw => by simp [Session.create, SharedMutex.create] at hw
  order := rfl

/-- A holder leaves, and the waiters that can go on are woken. -/
theorem Inv.release {s : Session} (h : Inv s) {w : Waiter} {r : SharedMutex × List Waiter}
    (hwoken : Woken (s.held.erase w) s.mutex.waiters r) : Inv (s.release w r.1 r.2) where
  accounts := hwoken.accounts
  settled := hwoken.settled
  order := by
    show s.granted ++ r.2 ++ r.1.waiters = s.arrived
    rw [List.append_assoc, hwoken.order, h.order]

/-- A request that has to wait. -/
theorem Inv.enqueue {s : Session} (h : Inv s) {w : Waiter}
    (hwaits : s.mutex.waiters = [] → s.mutex.writer = true ∨ (w.forWrite = true ∧ s.mutex.readers ≠ 0)) :
    Inv (s.arrive w { s.mutex with waiters := s.mutex.waiters ++ [w] } false) where
  accounts := h.accounts
  settled := by
    intro w' hw'
    cases hcase : s.mutex.waiters with
    | nil =>
      obtain rfl : w = w' := by simpa [Session.arrive, hcase] using hw'
      exact hwaits hcase
    | cons w₀ ws =>
      refine h.settled w' ?_
      simpa [Session.arrive, hcase] using hw'
  order := by
    show s.granted ++ (s.mutex.waiters ++ [w]) = s.arrived ++ [w]
    rw [← List.append_assoc, h.order]

/-- A request that gets the mutex at once: nobody waits. -/
theorem Inv.admits {s : Session} (h : Inv s) {w : Waiter} {readers : UInt32} {writer : Bool}
    (hempty : s.mutex.waiters = []) (haccounts : Accounts readers writer (s.held ++ [w])) :
    Inv (s.arrive w ⟨readers, writer, s.mutex.waiters⟩ true) where
  accounts := haccounts
  settled := fun w' hw' => by simp [Session.arrive, hempty] at hw'
  order := by
    have horder := h.order
    rw [hempty, List.append_nil] at horder
    show (s.granted ++ [w]) ++ s.mutex.waiters = s.arrived ++ [w]
    rw [hempty, List.append_nil, horder]

/-- `lock` takes a free mutex, or waits. -/
theorem Inv.lock {s t : Session} (h : Inv s) (hstep : s.step .lock = some t) : Inv t := by
  cases hstep
  show Inv (s.arrive ⟨s.arrived.length, true⟩ (s.mutex.lock _).1 (s.mutex.lock _).2)
  by_cases hfree : s.mutex.readers = 0 ∧ s.mutex.writer = false
  · have hempty : s.mutex.waiters = [] := by
      cases hcase : s.mutex.waiters with
      | nil => rfl
      | cons w ws =>
        have hw := h.settled w (by simp [hcase])
        simp [hfree.1, hfree.2] at hw
    have heq : s.mutex.lock s.arrived.length = ({ s.mutex with writer := true }, true) := by
      rw [SharedMutex.lock, if_pos (by simp [hfree])]
    have haccounts := h.accounts
    rw [hfree.2] at haccounts
    rw [heq]
    exact h.admits hempty (haccounts.addWriter hfree.1 (w := ⟨_, true⟩) rfl)
  · have heq : s.mutex.lock s.arrived.length =
        ({ s.mutex with waiters := s.mutex.waiters ++ [⟨s.arrived.length, true⟩] }, false) := by
      rw [SharedMutex.lock, if_neg (by simpa using hfree)]
    rw [heq]
    refine h.enqueue fun _ => ?_
    cases hwriter : s.mutex.writer with
    | true => exact .inl rfl
    | false => exact .inr ⟨rfl, fun hzero => hfree ⟨hzero, hwriter⟩⟩

/-- `lock_shared` takes a mutex that nobody waits for, or waits. -/
theorem Inv.lockShared {s t : Session} (h : Inv s) (hfits : SharedFits s .lockShared)
    (hstep : s.step .lockShared = some t) : Inv t := by
  cases hstep
  show Inv (s.arrive ⟨s.arrived.length, false⟩ (s.mutex.lockShared _).1 (s.mutex.lockShared _).2)
  by_cases hfree : s.mutex.writer = false ∧ s.mutex.waiters = []
  · have heq : s.mutex.lockShared s.arrived.length =
        ({ s.mutex with readers := s.mutex.readers + 1 }, true) := by
      rw [SharedMutex.lockShared, if_pos (by simp [hfree])]
    have haccounts := h.accounts
    rw [hfree.1] at haccounts
    rw [heq]
    refine h.admits hfree.2 ?_
    rw [hfree.1]
    exact haccounts.addReader (hfits hfree.2) rfl
  · have heq : s.mutex.lockShared s.arrived.length =
        ({ s.mutex with waiters := s.mutex.waiters ++ [⟨s.arrived.length, false⟩] }, false) := by
      rw [SharedMutex.lockShared, if_neg (by simpa using hfree)]
    rw [heq]
    refine h.enqueue fun hempty => .inl ?_
    cases hwriter : s.mutex.writer with
    | true => rfl
    | false => exact absurd ⟨hwriter, hempty⟩ hfree

/-- `unlock` of the writer. -/
theorem Inv.unlock {s t : Session} {pr : Nat} (h : Inv s) (hfits : SharedFits s (.unlock pr))
    (hstep : s.step (.unlock pr) = some t) : Inv t := by
  simp only [Session.step] at hstep
  split at hstep
  · rename_i hmem
    cases hstep
    obtain ⟨haccounts, hzero⟩ := h.accounts.removeWriter hmem rfl
    have hnone : sharedCount (s.held.erase ⟨pr, true⟩) = 0 := by
      rw [← haccounts.shared, hzero]
      rfl
    have hroom : sharedCount (s.held.erase ⟨pr, true⟩) +
        (s.mutex.waiters.takeWhile fun w => !w.forWrite).length < 2 ^ 32 := by
      rw [hnone, Nat.zero_add]
      exact hfits
    exact h.release (wakeLoop_woken haccounts hroom)
  · cases hstep

/-- `unlock_shared` of a reader. -/
theorem Inv.unlockShared {s t : Session} {pr : Nat} (h : Inv s)
    (hstep : s.step (.unlockShared pr) = some t) : Inv t := by
  simp only [Session.step] at hstep
  split at hstep
  · rename_i hmem
    cases hstep
    have hwriter := (h.accounts.noWriter hmem rfl).2
    have haccounts := h.accounts.removeReader hmem rfl
    -- The first waiter is a writer, so `wake` lets no reader in.
    have hnone : s.mutex.waiters.takeWhile (fun w => !w.forWrite) = [] := by
      cases hcase : s.mutex.waiters with
      | nil => rfl
      | cons w ws =>
        have hw := h.settled w (by simp [hcase])
        rw [hwriter] at hw
        simp [(hw.resolve_left (by decide)).1]
    have hroom : sharedCount (s.held.erase ⟨pr, false⟩) +
        (s.mutex.waiters.takeWhile fun w => !w.forWrite).length < 2 ^ 32 := by
      rw [hnone, List.length_nil, Nat.add_zero, ← haccounts.shared]
      exact UInt32.toNat_lt _
    have hwake : s.mutex.unlockShared = wakeLoop (s.mutex.readers - 1) false s.mutex.waiters := by
      rw [← hwriter]
      rfl
    rw [hwake]
    exact h.release (wakeLoop_woken haccounts hroom)
  · cases hstep

/-- Every step keeps the invariant while the readers can be counted. -/
theorem Inv.step {s t : Session} {c : Call} (h : Inv s) (hfits : SharedFits s c)
    (hstep : s.step c = some t) : Inv t := by
  cases c with
  | lock => exact h.lock hstep
  | lockShared => exact h.lockShared hfits hstep
  | unlock pr => exact h.unlock hfits hstep
  | unlockShared pr => exact h.unlockShared hstep

/-! ### What the callers see -/

/-- In a state with the invariant the mutex is right. -/
theorem Inv.correct {s : Session} (h : Inv s) : Correct s where
  exclusive := by
    intro w hmem hw
    obtain ⟨haccounts, hzero⟩ := h.accounts.removeWriter hmem hw
    -- Without `w` the list holds neither a reader nor a writer.
    have hrest : s.held.erase w = [] := by
      have hshared := haccounts.shared
      rw [hzero] at hshared
      rw [List.eq_nil_iff_forall_not_mem]
      intro w' hmem'
      cases hw' : w'.forWrite with
      | false =>
        have hpos : 0 < sharedCount (s.held.erase w) := List.countP_pos_iff.mpr ⟨w', hmem', by simp [hw']⟩
        exact absurd hpos (by rw [← hshared]; decide)
      | true =>
        have hpos : 0 < (s.held.erase w).countP (·.forWrite) := List.countP_pos_iff.mpr ⟨w', hmem', hw'⟩
        exact absurd hpos (by rw [haccounts.writers]; decide)
    have hperm := List.perm_cons_erase hmem
    rw [hrest] at hperm
    exact List.perm_singleton.mp hperm
  waitersWhileHeld := by
    intro hwaiters hheld
    obtain ⟨w, ws, hcase⟩ := List.exists_cons_of_ne_nil hwaiters
    have haccounts := h.accounts
    rw [hheld] at haccounts
    rcases h.settled w (by simp [hcase]) with hwriter | ⟨-, hreaders⟩
    · have hcount := haccounts.writers
      rw [hwriter] at hcount
      exact absurd hcount (by decide)
    · exact hreaders (UInt32.toNat_inj.mp haccounts.shared)
  inOrder := h.order
  writerFirst := by
    intro hreaders w hw
    rcases h.settled w hw with hwriter | ⟨hfor, -⟩
    · have hcount := h.accounts.writers
      have hzero : s.held.countP (·.forWrite) = 0 :=
        List.countP_eq_zero.mpr fun w' hmem' => by simp [hreaders w' hmem']
      rw [hzero, hwriter] at hcount
      exact absurd hcount (by decide)
    · exact hfor

/-- While `_readers` does not wrap, the mutex excludes, keeps the order of arrival and leaves nobody
waiting who could be let in, in every state that a run of matched calls visits. -/
theorem sharedMutex_correct {cs : List Call}
    (h : Guarded Session.step SharedFits Session.create cs) :
    Always Session.step Correct Session.create cs :=
  always_of_guarded Inv (fun _ hs => hs.correct) (fun _ _ _ hs hfits hstep => hs.step hfits hstep)
    Inv.create h

/-- A reader that follows a writer, then a writer that waits for it. -/
theorem sharedMutex_correct_handover :
    Guarded Session.step SharedFits Session.create
        [.lock, .lockShared, .unlock 0, .lock, .unlockShared 1] ∧
      Always Session.step Correct Session.create
        [.lock, .lockShared, .unlock 0, .lock, .unlockShared 1] := by
  have h : Guarded Session.step SharedFits Session.create
      [.lock, .lockShared, .unlock 0, .lock, .unlockShared 1] := by
    refine fun t₁ h₁ => ⟨trivial, fun t₂ h₂ => ⟨?_, fun t₃ h₃ => ⟨?_, fun t₄ h₄ =>
      ⟨trivial, fun t₅ h₅ => ⟨trivial, trivial⟩⟩⟩⟩⟩
    · cases h₁
      exact fun _ => by decide
    · cases h₁
      cases h₂
      show List.length _ < 2 ^ 32
      decide
  exact ⟨h, sharedMutex_correct h⟩

/-- `n` readers, and nobody else. -/
theorem run_lockShared (n : Nat) : ∃ s,
    run Session.step Session.create (List.replicate n .lockShared) = some s ∧
      s.mutex = ⟨UInt32.ofNat n, false, []⟩ ∧ s.held.length = n := by
  induction n with
  | zero => exact ⟨Session.create, rfl, rfl, rfl⟩
  | succ n ih =>
    obtain ⟨s, hrun, hmutex, hlen⟩ := ih
    have hstep : s.step .lockShared =
        some (s.arrive ⟨s.arrived.length, false⟩ ⟨UInt32.ofNat n + 1, false, []⟩ true) := by
      simp [Session.step, SharedMutex.lockShared, hmutex]
    refine ⟨s.arrive ⟨s.arrived.length, false⟩ ⟨UInt32.ofNat n + 1, false, []⟩ true, ?_, ?_, ?_⟩
    · rw [List.replicate_succ']
      exact run_append.mpr ⟨s, hrun, run_cons.mpr ⟨_, hstep, rfl⟩⟩
    · show (⟨UInt32.ofNat n + 1, false, []⟩ : SharedMutex) = _
      rw [UInt32.ofNat_add]
      rfl
    · simp [Session.arrive, hlen]

/-- With 2^32 readers the counter is zero, and a writer gets the mutex beside them. -/
theorem writer_beside_readers : ∃ s,
    run Session.step Session.create (List.replicate (2 ^ 32) .lockShared ++ [.lock]) = some s ∧
      ¬ Correct s := by
  obtain ⟨s, hrun, hmutex, hlen⟩ := run_lockShared (2 ^ 32)
  have hstep : s.step .lock =
      some (s.arrive ⟨s.arrived.length, true⟩ ⟨0, true, []⟩ true) := by
    have hzero : UInt32.ofNat (2 ^ 32) = 0 := by decide
    rw [hzero] at hmutex
    simp [Session.step, SharedMutex.lock, hmutex]
  refine ⟨_, run_append.mpr ⟨s, hrun, run_cons.mpr ⟨_, hstep, rfl⟩⟩, fun hcorrect => ?_⟩
  have hheld := hcorrect.exclusive ⟨s.arrived.length, true⟩ (by simp [Session.arrive]) rfl
  have hlen' := congrArg List.length hheld
  simp only [Session.arrive, if_true, List.length_append, List.length_singleton, hlen] at hlen'
  omega

end Netstar.Proofs.Core.SharedMutex
