import Mathlib.Algebra.Order.Ring.Int
import Netstar.Lib.Run

/-!
# `Netstar.Spec.Core.Sstring`: `basic_sstring` of `core/sstring.hh`

The only instance of `basic_sstring` is `sstring`, with `uint32_t` sizes and 15 characters of internal
storage. A string is internal or external. The characters of its storage are a list that starts at
`str()` and ends where the storage was last written, so the terminator is the character at the index
of the size. `u.internal.size` is negative exactly when the string is external. A constructor that
leaves the characters to the caller has them as an argument.

An operation can throw `overflow_error` or `out_of_range`, and leaves the strings as they are then. An
allocation does not fail. The copy of an external string can be undefined: it reads from a null pointer,
or it copies more than it allocated. A program has no next step after that.
-/

set_option autoImplicit false

namespace Netstar.Spec.Core

/-- The exception that an operation throws. -/
inductive SstringFault where
  | overflow
  | outOfRange
  deriving DecidableEq, Repr

/-- `basic_sstring`. The pointer of an external string is `none` when it is null. -/
inductive BasicSstring where
  | internal (str : List UInt8) (size : Nat)
  | external (str : Option (List UInt8)) (size : Nat)
  deriving DecidableEq, Repr

namespace BasicSstring

/-- `sizeof(u.internal.str)`. -/
def maxSize : Nat := 15

/-- `is_internal`. -/
def isInternal : BasicSstring → Bool
  | .internal _ _ => true
  | .external _ _ => false

/-- The characters from `str()` on. -/
def str : BasicSstring → List UInt8
  | .internal str _ => str
  | .external str _ => str.getD []

/-- `size`. -/
def size : BasicSstring → Nat
  | .internal _ size => size
  | .external _ size => size

/-- `empty`. It compares `u.internal.size`, which is -1 in an external string. -/
def empty : BasicSstring → Bool
  | .internal _ size => size == 0
  | .external _ _ => false

/-- The characters from `begin()` to `end()`. -/
def contents (s : BasicSstring) : List UInt8 := s.str.take s.size

/-- `c_str()`, read as a C string. There is none when no NUL follows in the storage. -/
def cStr (s : BasicSstring) : Option (List UInt8) :=
  if 0 ∈ s.str then some (s.str.takeWhile (· ≠ 0)) else none

/-! ### Constructors -/

/-- `basic_sstring()`, and what `reset` leaves. -/
def create : BasicSstring := .internal [0] 0

/-- `basic_sstring(initialized_later, size)`, with the characters that are then in the storage. -/
def initializedLater (chars : List UInt8) : Except SstringFault BasicSstring :=
  if 2 ^ 32 ≤ chars.length then .error .overflow
  else if chars.length + 1 ≤ maxSize then .ok (.internal (chars ++ [0]) chars.length)
  else .ok (.external (some (chars ++ [0])) chars.length)

/-- `basic_sstring(const char_type*, size_t)`. -/
def ofChars (x : List UInt8) : Except SstringFault BasicSstring := initializedLater x

/-- `basic_sstring(size_t, char_type)`. -/
def fill (size : Nat) (x : UInt8) : Except SstringFault BasicSstring :=
  initializedLater (List.replicate size x)

/-- `basic_sstring(const basic_sstring&)`, or `none` when the copy is undefined. The argument of `malloc`
is the sum `external.size + 1` in `uint32_t`. The range that is copied ends at `str + size + 1`, a sum of
pointers. -/
def copy : BasicSstring → Option BasicSstring
  | .internal str size => some (.internal str size)
  | .external none _ => none
  | .external (some str) size =>
    let allocated := (size + 1) % 2 ^ 32
    if allocated < size + 1 then none
    else some (.external (some (str.take (size + 1))) size)

/-! ### Operations on one string -/

/-- `append`. -/
def append (this : BasicSstring) (s : List UInt8) : Except SstringFault BasicSstring :=
  initializedLater (this.contents ++ s)

/-- `operator+=`. -/
def addAssign (this x : BasicSstring) : Except SstringFault BasicSstring :=
  initializedLater (this.contents ++ x.contents)

/-- `resize`. -/
def resize (this : BasicSstring) (n : Nat) (c : UInt8) : Except SstringFault BasicSstring :=
  if this.size < n then do
    let x ← fill (n - this.size) c
    this.addAssign x
  else if n < this.size then
    match this with
    | .internal str _ => .ok (.internal str n)
    | .external str _ =>
      if n + 1 ≤ maxSize then ofChars ((str.getD []).take n) else .ok (.external str n)
  else .ok this

/-- The storage after `std::copy` of `s` to the index `pos`. -/
def overwrite (this : BasicSstring) (pos : Nat) (s : List UInt8) : BasicSstring :=
  let chars := this.str.take pos ++ s ++ this.str.drop (pos + s.length)
  match this with
  | .internal _ size => .internal chars size
  | .external none size => .external none size
  | .external (some _) size => .external (some chars) size

/-- `replace(pos, n1, s, n2)`. -/
def replace (this : BasicSstring) (pos n1 : UInt32) (s : List UInt8) :
    Except SstringFault BasicSstring :=
  let pos := pos.toNat
  if this.size < pos then .error .outOfRange
  else
    let n1 := min n1.toNat (this.size - pos)
    if n1 = s.length then .ok (this.overwrite pos s)
    else
      initializedLater (this.contents.take pos ++ s ++ this.contents.drop (pos + n1))

/-- `replace(i1, i2, first, last)`, with the iterators as positions from `begin()`. -/
def replaceRange (this : BasicSstring) (i1 i2 : Int) (s : List UInt8) :
    Except SstringFault BasicSstring :=
  if i1 < 0 ∨ (this.size : Int) < i1 ∨ i2 < 0 then .error .outOfRange
  else
    let i2 := min i2 this.size
    if i2 - i1 = s.length then .ok (this.overwrite i1.toNat s)
    else initializedLater (this.contents.take i1.toNat ++ s ++ this.contents.drop i2.toNat)

/-- `erase`. -/
def erase (this : BasicSstring) (first last : Int) : Except SstringFault BasicSstring :=
  this.replace (UInt32.ofInt first) (UInt32.ofInt (last - first)) []

/-- `insert`. -/
def insert (this : BasicSstring) (p : Int) (s : List UInt8) : Except SstringFault BasicSstring :=
  this.replaceRange p p s

/-- What `release` leaves. -/
def release : BasicSstring → BasicSstring
  | .internal _ _ => create
  | .external _ _ => .external none 0

end BasicSstring

/-! ### Runs -/

open BasicSstring

/-- The operations that change one string. -/
inductive SstringOp where
  | append (s : List UInt8)
  | resize (n : Nat) (c : UInt8)
  | replace (pos n1 : UInt32) (s : List UInt8)
  | replaceRange (i1 i2 : Int) (s : List UInt8)
  | erase (first last : Int)
  | insert (p : Int) (s : List UInt8)
  | reset
  | release
  deriving DecidableEq, Repr

/-- The string after an operation. -/
def BasicSstring.apply (this : BasicSstring) : SstringOp → Except SstringFault BasicSstring
  | .append s => this.append s
  | .resize n c => this.resize n c
  | .replace pos n1 s => this.replace pos n1 s
  | .replaceRange i1 i2 s => this.replaceRange i1 i2 s
  | .erase first last => this.erase first last
  | .insert p s => this.insert p s
  | .reset => .ok create
  | .release => .ok this.release

/-- The calls. A constructor puts a new string at the end of the table. -/
inductive SstringCall where
  | create
  | initializedLater (chars : List UInt8)
  | ofChars (x : List UInt8)
  | fill (size : Nat) (x : UInt8)
  | copy (i : Nat)
  | move (i : Nat)
  | assignCopy (i j : Nat)
  | assignMove (i j : Nat)
  | apply (i : Nat) (op : SstringOp)
  deriving DecidableEq, Repr

/-- The strings of a program, and whether it has done something undefined. -/
structure SstringTable where
  strings : List BasicSstring
  undefined : Bool
  deriving DecidableEq, Repr

namespace SstringTable

/-- The start of a program. -/
def create : SstringTable := ⟨[], false⟩

/-- A new string. -/
def push (table : SstringTable) (s : BasicSstring) : SstringTable :=
  { table with strings := table.strings ++ [s] }

/-- String `i` with a new value. -/
def set (table : SstringTable) (i : Nat) (s : BasicSstring) : SstringTable :=
  { table with strings := table.strings.set i s }

/-- A new string, when its constructor succeeds. -/
def add (table : SstringTable) : Except SstringFault BasicSstring → SstringTable
  | .ok s => table.push s
  | .error _ => table

/-- A string with its new value, when the operation succeeds. -/
def assign (table : SstringTable) (i : Nat) : Except SstringFault BasicSstring → SstringTable
  | .ok s => table.set i s
  | .error _ => table

/-- What comes after a copy, which may be undefined. -/
def afterCopy (table : SstringTable) (next : BasicSstring → SstringTable) :
    Option BasicSstring → SstringTable
  | some s => next s
  | none => { table with undefined := true }

/-- One call. A call on a string that is not in the table is not possible. -/
def step (table : SstringTable) (c : SstringCall) : Option SstringTable :=
  if table.undefined then none
  else
    match c with
    | .create => some (table.push BasicSstring.create)
    | .initializedLater chars => some (table.add (BasicSstring.initializedLater chars))
    | .ofChars x => some (table.add (BasicSstring.ofChars x))
    | .fill size x => some (table.add (BasicSstring.fill size x))
    | .copy i => table.strings[i]?.map fun x => table.afterCopy table.push x.copy
    | .move i => table.strings[i]?.map fun x => (table.set i BasicSstring.create).push x
    | .assignCopy i j => do
      let _ ← table.strings[i]?
      let x ← table.strings[j]?
      return table.afterCopy (table.set i) x.copy
    | .assignMove i j => do
      let _ ← table.strings[i]?
      let x ← table.strings[j]?
      return if i = j then table else (table.set i x).set j BasicSstring.create
    | .apply i op => table.strings[i]?.map fun this => table.assign i (this.apply op)

end SstringTable

/-- The representation invariant: the character at the index of the size is NUL, `c_str()` is the
contents up to their first NUL, and `empty()` holds exactly when the size is 0. -/
structure SstringRight (s : BasicSstring) : Prop where
  nul : s.str[s.size]? = some 0
  c_str : s.cStr = some (s.contents.takeWhile (· ≠ 0))
  empty_iff : s.empty = true ↔ s.size = 0

end Netstar.Spec.Core
