import Netstar.Spec.Net.PacketUtil
import Netstar.Lib.Result

/-!
# `Netstar.Proofs.Net.MergeBytes`: the merger does not look at the bytes

`merge` compares offsets and lengths. So it does the same to two maps whose packets differ in their
bytes only: `merge_map` states this for any function on bytes. A merger whose fragments contradict
each other behaves like one in which every byte is zero, and there the fragments are parts of one
stream.
-/

set_option autoImplicit false

namespace Netstar.Proofs.Net

open Netstar.Spec.Net

variable {α : Type} (g : UInt8 → UInt8)

/-- The map with other bytes. -/
def mapBytes (m : SegMap α) : SegMap α := m.map fun e => (e.1, e.2.map g)

/-- The end of the first loop, with other bytes. -/
def mapFirst : FirstLoop α → FirstLoop α
  | .covered => .covered
  | .insert m p => .insert (mapBytes g m) (p.map g)
  | .extended m => .extended (mapBytes g m)

/-- An empty map stays empty. -/
@[simp] theorem mapBytes_nil : mapBytes g ([] : SegMap α) = [] := rfl

/-- The bytes of a map are changed segment by segment. -/
@[simp] theorem mapBytes_cons (b : α) (p : Packet) (m : SegMap α) :
    mapBytes g ((b, p) :: m) = (b, p.map g) :: mapBytes g m := rfl

variable [MergeOffset α]

/-- Trimming does not look at the bytes. -/
theorem trimFront_map (p : Packet) (k : Int) :
    trimFront (p.map g) k = (trimFront p k).map (List.map g) := by
  simp only [trimFront, List.length_map]
  split
  · show Except.ok ((p.map g).drop k.toNat) = Except.ok ((p.drop k.toNat).map g)
    rw [List.map_drop]
  · rfl

/-- The first loop of the merger does not look at the bytes. -/
theorem firstLoop_map (beg : α) (p : Packet) (m : SegMap α) :
    firstLoop beg (p.map g) (mapBytes g m) = (firstLoop beg p m).map (mapFirst g) := by
  induction m with
  | nil => rfl
  | cons e rest ih =>
    obtain ⟨segBeg, segPkt⟩ := e
    simp only [mapBytes_cons, firstLoop, List.length_map, trimFront_map, ih]
    split
    · rfl
    split
    · rfl
    split
    · -- Case 3: the rest of the segment is appended to the packet.
      cases trimFront segPkt _ with
      | error e => rfl
      | ok tail =>
        show Except.ok (FirstLoop.insert _ (p.map g ++ tail.map g)) = Except.ok (FirstLoop.insert _ _)
        rw [List.map_append]
    split
    · -- Case 4: the rest of the packet is appended to the segment.
      cases trimFront p _ with
      | error e => rfl
      | ok tail =>
        show Except.ok (FirstLoop.extended ((segBeg, segPkt.map g ++ tail.map g) :: _)) =
          Except.ok (FirstLoop.extended ((segBeg, (segPkt ++ tail).map g) :: _))
        rw [List.map_append]
        rfl
    · cases firstLoop beg p rest with
      | error e => rfl
      | ok r => cases r <;> rfl

/-- Inserting a segment does not look at the bytes. -/
theorem mapEmplace_map (beg : α) (p : Packet) (m : SegMap α) :
    mapEmplace beg (p.map g) (mapBytes g m) = mapBytes g (mapEmplace beg p m) := by
  induction m with
  | nil => rfl
  | cons e rest ih =>
    obtain ⟨k, q⟩ := e
    simp only [mapBytes_cons, mapEmplace, ih]
    split
    · rfl
    · split
      · rfl
      · rfl

/-- The second loop of the merger does not look at the bytes. -/
theorem secondLoop_map (m : SegMap α) (beg : α) (p : Packet) :
    secondLoop (beg, p.map g) (mapBytes g m) = (secondLoop (beg, p) m).map (mapBytes g) := by
  induction m generalizing beg p with
  | nil => rfl
  | cons e rest ih =>
    obtain ⟨b, q⟩ := e
    simp only [mapBytes_cons, secondLoop, List.length_map, trimFront_map]
    split
    · cases trimFront q _ with
      | error e => rfl
      | ok tail =>
        show secondLoop (beg, p.map g ++ tail.map g) _ = Except.map _ (secondLoop (beg, p ++ tail) rest)
        rw [← List.map_append]
        exact ih beg (p ++ tail)
    · split
      · exact ih beg p
      · split
        · rw [ih b q]
          cases secondLoop (b, q) rest with
          | error e => rfl
          | ok m' => rfl
        · rfl

/-- One `merge` call with other bytes. -/
theorem merge_map (m : SegMap α) (offset : α) (p : Packet) :
    merge (mapBytes g m) offset (p.map g) = (merge m offset p).map (mapBytes g) := by
  have hadjacent : ∀ m : SegMap α,
      mergeAdjacent (mapBytes g m) = (mergeAdjacent m).map (mapBytes g) := by
    intro m
    cases m with
    | nil => rfl
    | cons e rest => exact secondLoop_map g rest e.1 e.2
  simp only [merge, firstLoop_map]
  cases firstLoop offset p m with
  | error e => rfl
  | ok r =>
    cases r with
    | covered => rfl
    | insert m' p' =>
      show mergeAdjacent (mapEmplace offset (p'.map g) (mapBytes g m')) = _
      rw [mapEmplace_map]
      exact hadjacent _
    | extended m' => exact hadjacent m'

end Netstar.Proofs.Net
