import Netstar.Proofs.Net.PacketShare
import Netstar.Spec.Net.PacketStore

/-!
# `Netstar.Proofs.Net.PacketAsserts`: the assertions of the operations

`PacketAssertsHold s op` says that the assertions of an operation hold: `trim_front` and `trim_back` do not take
more than there is, and an array of fragments that has to be allocated has fewer than `2^16` entries,
which is the assertion of `operator new`. `step_eq_assertion` is the one direction: without it the
operation stops. The other direction is part of the specification of each operation.
-/

set_option autoImplicit false

namespace Netstar.Proofs.Net

open Netstar.Lib (ok_bind)
open Netstar.Spec.Net
open Netstar.Spec.Net.PacketImpl (prependCopy)

/-- The packet in the place `i` satisfies the condition. -/
def AtSlot (s : PacketStore) (i : Nat) (holds : PacketImpl → Prop) : Prop :=
  ∀ x, s[i]? = some (some x) → holds x.impl

/-- The assertions of the operation hold. -/
def PacketAssertsHold (s : PacketStore) : PacketOp → Prop
  | .withFrags nrFrags => nrFrags < 2 ^ 16
  | .ofFrags frags => frags.length < 2 ^ 16
  | .appendFrag i _ => AtSlot s i fun p => ArrayGrows p 1
  | .prependCopy i bytes | .prependHeader i bytes => AtSlot s i fun p => PrependGrows p bytes.length
  | .append i j => AtSlot s i fun p => p.len = 0 ∨ AtSlot s j fun q => ArrayGrows p q.nrFrags
  | .trimFront i howMuch | .trimBack i howMuch => AtSlot s i fun p => howMuch ≤ p.len
  | .reserve i nFrags => AtSlot s i fun p => ArrayGrows p (nFrags - p.nrFrags)
  | .empty | .ofCopy _ | .share _ _ _ | .linearize _ | .getHeader _ _ _ | .release _ => True

variable {p : PacketImpl} {trimmed : Bool} {c : List UInt8}

/-! ### Functions that stop -/

/-- Too many fragments are asserted against. -/
theorem allocate_eq_error {nr : Nat} (h : ¬ nr < 2 ^ 16) :
    PacketImpl.allocate nr = .error .assertion := by
  have hlarge : ¬ max nr PacketImpl.defaultNrFrags < 2 ^ 16 := by omega
  rw [PacketImpl.allocate, PacketImpl.check, decide_eq_false hlarge]
  rfl

/-- An array that cannot grow is asserted against. -/
theorem allocateIfNeeded_eq_error {extra : Nat} (h : ¬ ArrayGrows p extra) :
    p.allocateIfNeeded extra = .error .assertion := by
  rw [ArrayGrows, not_or] at h
  rw [PacketImpl.allocateIfNeeded, if_neg h.1, PacketImpl.copy, allocate_eq_error h.2]
  rfl

/-- Filling the headroom of a packet without `_data` needs an array that can grow. -/
theorem fillHeadroom_eq_error {bytes : List UInt8} (husing : p.usingInternalData = false)
    (h : ¬ ArrayGrows p 1) : p.fillHeadroom bytes = .error .assertion := by
  have hnot : PacketImpl.usingInternalData { p with len := PacketImpl.toUnsigned (p.len + bytes.length) } =
      false := husing
  have herror : PacketImpl.allocateIfNeeded
      { p with len := PacketImpl.toUnsigned (p.len + bytes.length) } 1 = .error .assertion :=
    allocateIfNeeded_eq_error h
  simp only [PacketImpl.fillHeadroom, hnot, Bool.false_eq_true, if_false, herror]
  rfl

/-- Prepending a fragment needs an array that can grow. -/
theorem prependFrag_eq_error {bytes : List UInt8} (h : ¬ ArrayGrows p 1) :
    p.prependFrag bytes = .error .assertion := by
  rw [PacketImpl.prependFrag, allocateIfNeeded_eq_error h]
  rfl

/-- What is in the way of `PrependGrows`. -/
theorem not_prependGrows {size : Nat} (h : ¬ PrependGrows p size) :
    (size ≤ p.headroom → p.usingInternalData = false) ∧ ¬ ArrayGrows p 1 := by
  rw [PrependGrows, not_or] at h
  exact ⟨fun hfits => (Bool.not_eq_true _).mp fun husing => h.1 ⟨hfits, husing⟩, h.2⟩

/-- Prepending a copy needs room in `_data` or an array that can grow. -/
theorem prependCopy_eq_error {bytes : List UInt8} (h : ¬ PrependGrows p bytes.length) :
    prependCopy bytes p = .error .assertion := by
  obtain ⟨husing, hgrows⟩ := not_prependGrows h
  rw [prependCopy]
  split
  · rename_i hfits
    exact fillHeadroom_eq_error (husing hfits) hgrows
  · exact prependFrag_eq_error fun hunuse => hgrows (arrayGrows_unuse.mp hunuse)

/-- Prepending a header needs room in `_data` or an array that can grow. -/
theorem prependUninitializedHeader_eq_error {bytes : List UInt8} (hp : Rep p trimmed c)
    (h : ¬ PrependGrows p bytes.length) :
    p.prependUninitializedHeader bytes = .error .assertion := by
  obtain ⟨husing, hgrows⟩ := not_prependGrows h
  have hunuse : ¬ ArrayGrows p.unuseInternalData 1 := fun hunuse => hgrows (arrayGrows_unuse.mp hunuse)
  rw [PacketImpl.prependUninitializedHeader]
  split
  · rename_i hfits
    exact fillHeadroom_eq_error (husing hfits) hgrows
  · dsimp only
    split
    · exact fillHeadroom_eq_error (unuse_spec hp false).2.usingInternalData hunuse
    · exact prependFrag_eq_error hunuse

/-- Appending to a packet with bytes needs an array that can grow. -/
theorem append_eq_error {q : PacketImpl} (h : ¬ (p.len = 0 ∨ ArrayGrows p q.nrFrags)) :
    p.append q = .error .assertion := by
  rw [not_or] at h
  rw [PacketImpl.append, if_neg h.1, allocateIfNeeded_eq_error h.2]
  rfl

/-- Trimming more than there is from the front is asserted against. -/
theorem trimFront_eq_error {howMuch : Nat} (h : ¬ howMuch ≤ p.len) :
    p.trimFront howMuch = .error .assertion := by
  rw [PacketImpl.trimFront, PacketImpl.check, decide_eq_false h]
  rfl

/-- Trimming more than there is from the back is asserted against. -/
theorem trimBack_eq_error {howMuch : Nat} (h : ¬ howMuch ≤ p.len) :
    p.trimBack howMuch = .error .assertion := by
  rw [PacketImpl.trimBack, PacketImpl.check, decide_eq_false h]
  rfl

/-- `reserve` of fewer fragments than there are allocates nothing. -/
theorem reserve_eq_error {nFrags : Nat} (hp : Rep p trimmed c) (h : ¬ ArrayGrows p (nFrags - p.nrFrags)) :
    p.reserve nFrags = .error .assertion := by
  have hmore : p.nrFrags < nFrags := by
    by_contra hle
    refine h (.inl ?_)
    have hroom := hp.room
    omega
  rw [PacketImpl.reserve, if_pos hmore, allocateIfNeeded_eq_error h]

end Netstar.Proofs.Net
