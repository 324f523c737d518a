import Netstar.Lib.Result
import Netstar.Spec.Core.Sstring

/-!
# `Netstar.Proofs.Core.Sstring`: the terminator and the representation of a string

Most operations build their result with `initialized_later`, which writes the terminator
(`initializedLater_spec`), or overwrite characters before it (`WellFormed.overwrite`). Three do not.
`resize` to a smaller size keeps the storage and does not write a terminator, unless it moves the
string to internal storage. `release` leaves an external string without storage. The copy of an
external string counts the bytes of its allocation in a `uint32_t`, so it allocates none and copies all
when the string has the largest size.

`sstring_right_iff` says that a run is defined and keeps the representation invariant of all strings
exactly when it avoids these three.
-/

set_option autoImplicit false

namespace Netstar.Proofs.Core.Sstring

open Netstar.Lib
open Netstar.Spec.Core
open Netstar.Spec.Core.BasicSstring

/-- The invariant of a string. -/
structure WellFormed (s : BasicSstring) : Prop where
  nul : s.str[s.size]? = some 0
  size_lt : s.size < 2 ^ 32
  internal : s.isInternal = true → s.size + 1 ≤ maxSize
  external : s.isInternal = false → maxSize ≤ s.size

/-! ### What the invariant gives -/

/-- Before the terminator the storage has the contents. -/
theorem str_eq_contents {s : BasicSstring} (h : s.str[s.size]? = some 0) :
    ∃ rest, s.str = s.contents ++ 0 :: rest := by
  obtain ⟨hlt, hget⟩ := List.getElem?_eq_some_iff.mp h
  refine ⟨s.str.drop (s.size + 1), ?_⟩
  rw [contents, ← hget, ← List.drop_eq_getElem_cons hlt, List.take_append_drop]

/-- Reading stops at a NUL, whatever comes behind it. -/
theorem takeWhile_append_nul (l rest : List UInt8) :
    (l ++ 0 :: rest).takeWhile (· ≠ 0) = l.takeWhile (· ≠ 0) := by
  induction l with
  | nil => rfl
  | cons c l ih =>
    rw [List.cons_append, List.takeWhile_cons, List.takeWhile_cons, ih]

/-- A C string ends at the first NUL of the contents, or at the terminator. -/
theorem cStr_eq {s : BasicSstring} (h : s.str[s.size]? = some 0) :
    s.cStr = some (s.contents.takeWhile (· ≠ 0)) := by
  obtain ⟨rest, hstr⟩ := str_eq_contents h
  have hmem : 0 ∈ s.str := by
    rw [hstr]
    exact List.mem_append_right _ List.mem_cons_self
  rw [cStr, if_pos hmem, hstr, takeWhile_append_nul]

/-- The invariant gives what is right for a string. -/
theorem WellFormed.right {s : BasicSstring} (h : WellFormed s) : SstringRight s where
  nul := h.nul
  c_str := cStr_eq h.nul
  empty_iff := by
    cases s with
    | internal str size => exact beq_iff_eq
    | external str size =>
      have hsize : 15 ≤ size := h.external rfl
      refine iff_of_false Bool.false_ne_true fun hzero => ?_
      rw [show size = 0 from hzero] at hsize
      exact absurd hsize (by decide)

/-! ### Operations that write the terminator -/

/-- The empty string. -/
theorem wellFormed_create : WellFormed create :=
  ⟨rfl, by decide, fun _ => by decide, fun h => nomatch h⟩

/-- A new string has its characters and the terminator behind them. -/
theorem initializedLater_spec {chars : List UInt8} {s : BasicSstring}
    (h : initializedLater chars = .ok s) : WellFormed s := by
  have hnul : (chars ++ [0])[chars.length]? = some 0 := by simp
  rw [initializedLater] at h
  split at h
  · cases h
  rename_i hlt
  split at h
  · rename_i hle
    cases h
    exact ⟨hnul, Nat.not_le.mp hlt, fun _ => hle, fun hext => nomatch hext⟩
  · rename_i hgt
    cases h
    exact ⟨hnul, Nat.not_le.mp hlt, (fun hint => nomatch hint), fun _ => Nat.lt_succ_iff.mp (Nat.not_le.mp hgt)⟩

/-! ### Operations before the terminator -/

/-- Characters are overwritten in place. -/
theorem isInternal_overwrite (s : BasicSstring) (pos : Nat) (chars : List UInt8) :
    (s.overwrite pos chars).isInternal = s.isInternal := by
  rcases s with ⟨str, size⟩ | ⟨_ | str, size⟩ <;> rfl

/-- Characters are overwritten in place. -/
theorem size_overwrite (s : BasicSstring) (pos : Nat) (chars : List UInt8) :
    (s.overwrite pos chars).size = s.size := by
  rcases s with ⟨str, size⟩ | ⟨_ | str, size⟩ <;> rfl

/-- Characters before the terminator do not reach it. -/
theorem getElem?_overwrite {s : BasicSstring} {pos : Nat} {chars : List UInt8}
    (h : pos + chars.length ≤ s.size) (hsize : s.size < s.str.length) :
    (s.overwrite pos chars).str[s.size]? = s.str[s.size]? := by
  have hlist : ∀ l : List UInt8, s.size < l.length →
      (l.take pos ++ chars ++ l.drop (pos + chars.length))[s.size]? = l[s.size]? := by
    intro l hl
    have hlength : (l.take pos ++ chars).length = pos + chars.length := by
      rw [List.length_append, List.length_take, Nat.min_eq_left (by omega)]
    rw [List.getElem?_append_right (by omega), hlength, List.getElem?_drop]
    congr 1
    omega
  rcases s with ⟨str, size⟩ | ⟨_ | str, size⟩
  · exact hlist str hsize
  · exact absurd hsize (Nat.not_lt_zero _)
  · exact hlist str hsize

/-- Characters before the terminator are overwritten. -/
theorem WellFormed.overwrite {s : BasicSstring} (h : WellFormed s) {pos : Nat} {chars : List UInt8}
    (hle : pos + chars.length ≤ s.size) : WellFormed (s.overwrite pos chars) := by
  obtain ⟨hlt, -⟩ := List.getElem?_eq_some_iff.mp h.nul
  constructor
  · rw [size_overwrite, getElem?_overwrite hle hlt]
    exact h.nul
  · rw [size_overwrite]
    exact h.size_lt
  · rw [size_overwrite, isInternal_overwrite]
    exact h.internal
  · rw [size_overwrite, isInternal_overwrite]
    exact h.external

/-- `replace` with a position and a number of characters. -/
theorem WellFormed.replace {s t : BasicSstring} (h : WellFormed s) {pos n1 : UInt32}
    {chars : List UInt8} (hreplace : s.replace pos n1 chars = .ok t) : WellFormed t := by
  simp only [BasicSstring.replace] at hreplace
  split at hreplace
  · cases hreplace
  rename_i hpos
  split at hreplace
  · rename_i hlength
    cases hreplace
    exact h.overwrite (by omega)
  · exact initializedLater_spec hreplace

/-- `replace` with two iterators. -/
theorem WellFormed.replaceRange {s t : BasicSstring} (h : WellFormed s) {i1 i2 : Int}
    {chars : List UInt8} (hreplace : s.replaceRange i1 i2 chars = .ok t) : WellFormed t := by
  simp only [BasicSstring.replaceRange] at hreplace
  split at hreplace
  · cases hreplace
  rename_i hrange
  split at hreplace
  · rename_i hlength
    cases hreplace
    exact h.overwrite (by omega)
  · exact initializedLater_spec hreplace

/-! ### The operations that need a condition -/

/-- A smaller size that keeps the storage has a NUL at its index. -/
def ShrinksToNul (s : BasicSstring) (n : Nat) : Prop :=
  n < s.size → (s.isInternal = true ∨ maxSize ≤ n) → s.str[n]? = some 0

/-- The conditions on an operation on one string. -/
def OpKeepsNul (s : BasicSstring) : SstringOp → Prop
  | .resize n _ => ShrinksToNul s n
  | .release => s.isInternal = true
  | _ => True

/-- `resize`, when a smaller size finds a NUL. -/
theorem WellFormed.resize {s t : BasicSstring} (h : WellFormed s) {n : Nat} {c : UInt8}
    (hnul : ShrinksToNul s n) (hresize : s.resize n c = .ok t) : WellFormed t := by
  rw [BasicSstring.resize.eq_def] at hresize
  split at hresize
  · obtain ⟨x, -, hadd⟩ := bind_eq_ok.mp hresize
    exact initializedLater_spec hadd
  split at hresize
  · rename_i hlt
    have hsize := h.size_lt
    cases s with
    | internal str size =>
      cases hresize
      have hinternal := h.internal rfl
      exact ⟨hnul hlt (.inl rfl), Nat.lt_trans hlt hsize,
        fun _ => Nat.le_trans (Nat.succ_le_succ (Nat.le_of_lt hlt)) hinternal, fun hext => nomatch hext⟩
    | external str size =>
      dsimp only at hresize
      split at hresize
      · exact initializedLater_spec hresize
      · rename_i hgt
        cases hresize
        have hle : maxSize ≤ n := Nat.lt_succ_iff.mp (Nat.not_le.mp hgt)
        exact ⟨hnul hlt (.inr hle), Nat.lt_trans hlt hsize, (fun hint => nomatch hint), fun _ => hle⟩
  · cases hresize
    exact h

/-- When a smaller string is terminated, its condition held. -/
theorem shrinksToNul_of_right {s : BasicSstring} {n : Nat} {c : UInt8}
    (hright : ∀ t, s.resize n c = .ok t → SstringRight t) : ShrinksToNul s n := by
  intro hlt hkeeps
  have hnot : ¬ s.size < n := by omega
  cases s with
  | internal str size =>
    exact (hright (.internal str n) (by rw [BasicSstring.resize, if_neg hnot, if_pos hlt])).nul
  | external str size =>
    have hle : maxSize ≤ n := hkeeps.resolve_left fun h => nomatch h
    have hbig : ¬ n + 1 ≤ maxSize := by omega
    refine (hright (.external str n) ?_).nul
    rw [BasicSstring.resize, if_neg hnot, if_pos hlt]
    exact if_neg hbig

/-- An operation keeps the invariant under its condition. -/
theorem WellFormed.apply {s t : BasicSstring} (h : WellFormed s) {op : SstringOp}
    (hok : OpKeepsNul s op) (happly : s.apply op = .ok t) : WellFormed t := by
  cases op with
  | append chars => exact initializedLater_spec happly
  | resize n c => exact h.resize hok happly
  | replace pos n1 chars => exact h.replace happly
  | replaceRange i1 i2 chars => exact h.replaceRange happly
  | erase first last => exact h.replace happly
  | insert p chars => exact h.replaceRange happly
  | reset =>
    cases happly
    exact wellFormed_create
  | release =>
    cases s with
    | internal str size =>
      cases happly
      exact wellFormed_create
    | external str size => exact nomatch hok

/-- An operation whose result is right met its condition. -/
theorem opKeepsNul_of_right {s : BasicSstring} {op : SstringOp}
    (hright : ∀ t, s.apply op = .ok t → SstringRight t) : OpKeepsNul s op := by
  cases op with
  | resize n c => exact shrinksToNul_of_right hright
  | release =>
    cases s with
    | internal str size => rfl
    | external str size =>
      -- The released string has no storage.
      exact nomatch (hright _ rfl).nul
  | append chars => trivial
  | replace pos n1 chars => trivial
  | replaceRange i1 i2 chars => trivial
  | erase first last => trivial
  | insert p chars => trivial
  | reset => trivial

/-- The size of the string is not the largest one. -/
def Copyable (s : BasicSstring) : Prop := s.size ≠ 2 ^ 32 - 1

/-- The copy of a string that is not of the largest size. -/
theorem WellFormed.copy {s : BasicSstring} (h : WellFormed s) (hok : Copyable s) :
    ∃ t, s.copy = some t ∧ WellFormed t := by
  rcases s with ⟨str, size⟩ | ⟨_ | str, size⟩
  · exact ⟨_, rfl, h⟩
  · cases h.nul
  · have hsize : size < 2 ^ 32 := h.size_lt
    have hne : size ≠ 2 ^ 32 - 1 := hok
    have hroom : ¬ (size + 1) % 2 ^ 32 < size + 1 := by omega
    refine ⟨.external (some (str.take (size + 1))) size, if_neg hroom, ?_, h.size_lt, h.internal,
      h.external⟩
    show (str.take (size + 1))[size]? = some 0
    rw [List.getElem?_take_of_lt (Nat.lt_succ_self size)]
    exact h.nul

/-- When the copy of a string is defined, the string was not of the largest size. -/
theorem copyable_of_defined {s : BasicSstring} (h : WellFormed s) (hdefined : s.copy ≠ none) :
    Copyable s := by
  intro hsize
  rcases s with ⟨str, size⟩ | ⟨_ | str, size⟩
  · have hinternal : size + 1 ≤ maxSize := h.internal rfl
    rw [show size = 2 ^ 32 - 1 from hsize] at hinternal
    exact absurd hinternal (by decide)
  · exact hdefined rfl
  · have hfull : (size + 1) % 2 ^ 32 < size + 1 := by
      rw [show size = 2 ^ 32 - 1 from hsize]
      decide
    exact hdefined (if_pos hfull)

/-! ### Runs -/

/-- The calls that are defined and keep all strings terminated: a smaller size that keeps the storage has
a NUL at its index, only internal strings are released, and no string of the largest size is copied. -/
def KeepsNul (table : SstringTable) : SstringCall → Prop
  | .copy i => ∀ x, table.strings[i]? = some x → Copyable x
  | .assignCopy _ j => ∀ x, table.strings[j]? = some x → Copyable x
  | .apply i op => ∀ s, table.strings[i]? = some s → OpKeepsNul s op
  | _ => True

/-- The program has done nothing undefined, and every string of the table satisfies `Q`. -/
structure AllStrings (Q : BasicSstring → Prop) (table : SstringTable) : Prop where
  defined : table.undefined = false
  strings : ∀ s ∈ table.strings, Q s

section AllStrings

variable {Q : BasicSstring → Prop} {table : SstringTable}

/-- A string of the table. -/
theorem AllStrings.get (h : AllStrings Q table) {i : Nat} {s : BasicSstring}
    (hs : table.strings[i]? = some s) : Q s :=
  h.strings s (List.mem_of_getElem? hs)

/-- A new string. -/
theorem AllStrings.push (h : AllStrings Q table) {x : BasicSstring} (hx : Q x) :
    AllStrings Q (table.push x) := by
  refine ⟨h.defined, fun s hs => ?_⟩
  rcases List.mem_append.mp hs with hs | hs
  · exact h.strings s hs
  · rw [List.mem_singleton.mp hs]
    exact hx

/-- A string with a new value. -/
theorem AllStrings.set (h : AllStrings Q table) {x : BasicSstring} (hx : Q x) (i : Nat) :
    AllStrings Q (table.set i x) := by
  refine ⟨h.defined, fun s hs => ?_⟩
  rcases List.mem_or_eq_of_mem_set hs with hs | rfl
  · exact h.strings s hs
  · exact hx

/-- A constructor that throws adds nothing. -/
theorem AllStrings.add (h : AllStrings Q table) {r : Except SstringFault BasicSstring}
    (hr : ∀ s, r = .ok s → Q s) : AllStrings Q (table.add r) := by
  cases r with
  | error fault => exact h
  | ok x => exact h.push (hr x rfl)

/-- An operation that throws changes nothing. -/
theorem AllStrings.assign (h : AllStrings Q table) (i : Nat)
    {r : Except SstringFault BasicSstring} (hr : ∀ s, r = .ok s → Q s) :
    AllStrings Q (table.assign i r) := by
  cases r with
  | error fault => exact h
  | ok x => exact h.set (hr x rfl) i

/-- The result of an operation that did not throw. -/
theorem AllStrings.of_assign {i : Nat} {this : BasicSstring}
    (hthis : table.strings[i]? = some this) {r : Except SstringFault BasicSstring}
    (h : AllStrings Q (table.assign i r)) {s : BasicSstring} (hr : r = .ok s) : Q s := by
  subst hr
  exact h.strings s (List.mem_set (List.getElem?_eq_some_iff.mp hthis).1 s)

/-- A state that is defined comes after a copy that is. -/
theorem AllStrings.of_afterCopy {next : BasicSstring → SstringTable} {r : Option BasicSstring}
    (h : AllStrings Q (table.afterCopy next r)) : r ≠ none := by
  rintro rfl
  cases h.defined

end AllStrings

/-- A call that meets its condition is defined and keeps the invariant of all strings. -/
theorem wellFormed_step {table table' : SstringTable} {c : SstringCall}
    (h : AllStrings WellFormed table) (hok : KeepsNul table c) (hstep : table.step c = some table') :
    AllStrings WellFormed table' := by
  unfold SstringTable.step at hstep
  rw [if_neg (by simp [h.defined])] at hstep
  cases c with
  | create =>
    cases hstep
    exact h.push wellFormed_create
  | initializedLater chars =>
    cases hstep
    exact h.add fun s hs => initializedLater_spec hs
  | ofChars x =>
    cases hstep
    exact h.add fun s hs => initializedLater_spec hs
  | fill size x =>
    cases hstep
    exact h.add fun s hs => initializedLater_spec hs
  | copy i =>
    obtain ⟨x, hx, rfl⟩ := Option.map_eq_some_iff.mp hstep
    obtain ⟨s, hcopy, hs⟩ := (h.get hx).copy (hok x hx)
    rw [hcopy]
    exact h.push hs
  | move i =>
    obtain ⟨x, hx, rfl⟩ := Option.map_eq_some_iff.mp hstep
    exact (h.set wellFormed_create i).push (h.get hx)
  | assignCopy i j =>
    obtain ⟨this, -, hrest⟩ := Option.bind_eq_some_iff.mp hstep
    obtain ⟨x, hx, hset⟩ := Option.bind_eq_some_iff.mp hrest
    obtain ⟨s, hcopy, hs⟩ := (h.get hx).copy (hok x hx)
    cases hset
    rw [hcopy]
    exact h.set hs i
  | assignMove i j =>
    obtain ⟨this, -, hrest⟩ := Option.bind_eq_some_iff.mp hstep
    obtain ⟨x, hx, hset⟩ := Option.bind_eq_some_iff.mp hrest
    cases hset
    split
    · exact h
    · -- The source takes the contents and leaves an empty string behind.
      exact (h.set (h.get hx) i).set wellFormed_create j
  | apply i op =>
    obtain ⟨this, hthis, rfl⟩ := Option.map_eq_some_iff.mp hstep
    exact h.assign i fun s hs => (h.get hthis).apply (hok this hthis) hs

/-- A call after which the program is defined and all strings are right met its condition. -/
theorem keepsNul_of_right {table table' : SstringTable} {c : SstringCall}
    (h : AllStrings WellFormed table) (hstep : table.step c = some table')
    (hright : AllStrings SstringRight table') : KeepsNul table c := by
  unfold SstringTable.step at hstep
  rw [if_neg (by simp [h.defined])] at hstep
  cases c with
  | copy i =>
    intro x hx
    obtain ⟨y, hy, rfl⟩ := Option.map_eq_some_iff.mp hstep
    obtain rfl : y = x := Option.some.inj (hy.symm.trans hx)
    exact copyable_of_defined (h.get hy) hright.of_afterCopy
  | assignCopy i j =>
    intro x hx
    obtain ⟨this, -, hrest⟩ := Option.bind_eq_some_iff.mp hstep
    obtain ⟨y, hy, hset⟩ := Option.bind_eq_some_iff.mp hrest
    obtain rfl : y = x := Option.some.inj (hy.symm.trans hx)
    cases hset
    exact copyable_of_defined (h.get hy) hright.of_afterCopy
  | apply i op =>
    intro s hs
    obtain ⟨this, hthis, rfl⟩ := Option.map_eq_some_iff.mp hstep
    obtain rfl : this = s := Option.some.inj (hthis.symm.trans hs)
    exact opKeepsNul_of_right fun t ht => hright.of_assign hthis ht
  | create => trivial
  | initializedLater chars => trivial
  | ofChars x => trivial
  | fill size x => trivial
  | move i => trivial
  | assignMove i j => trivial

/-- A run is defined and all strings keep their representation invariant in it exactly when each call of
the run meets its condition. -/
theorem sstring_right_iff (cs : List SstringCall) :
    Always SstringTable.step (AllStrings SstringRight) .create cs ↔
      Guarded SstringTable.step KeepsNul .create cs :=
  always_iff_guarded_of_inv (AllStrings WellFormed)
    (fun _ h => ⟨h.defined, fun s hs => (h.strings s hs).right⟩)
    (fun _ _ _ h hok hstep => wellFormed_step h hok hstep)
    (fun _ _ _ h hstep hright => keepsNul_of_right h hstep hright)
    ⟨rfl, fun _ hs => absurd hs List.not_mem_nil⟩ cs

/-- The string `ab` is made smaller by a character: `c_str()` is still `ab`. -/
theorem not_right_resized :
    ¬ Always SstringTable.step (AllStrings SstringRight) .create
      [.ofChars [97, 98], .apply 0 (.resize 1 0)] := by
  intro h
  have hright := (h.last rfl).strings (.internal [97, 98, 0] 1) (by decide)
  exact absurd hright.nul (by decide)

end Netstar.Proofs.Core.Sstring
