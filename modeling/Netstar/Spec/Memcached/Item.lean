import Mathlib.Algebra.Order.Ring.Int
import Mathlib.Data.List.DropRight

/-!
# `Netstar.Spec.Memcached.Item`: `item` of memcached

An item has its key, its prefix and its value in one array of bytes, and reads them back from there. The
constructor and the readers compute the offsets with `align_up` of 8-bit sizes. For a size of 249 or
more the sum wraps around and the result is 0: the next field is then written over the one before.

The object has room for the sizes that are aligned with 64 bits (`item_size`), so nothing is written
behind its end. What is not written is never read.

`std::hash<sstring>` is a parameter.
-/

set_option autoImplicit false

namespace Netstar.Spec.Memcached

/-- The bytes of an `sstring`. -/
abbrev Bytes := List UInt8

/-- `item_insertion_data`. The size of an `sstring` has 32 bits. A time that never comes is `none`. -/
structure Insertion where
  key : Bytes
  asciiPrefix : Bytes
  data : Bytes
  expiry : Option Int
  data_lt : data.length < 2 ^ 32

/-! ### The bytes of an item -/

/-- `align_up(n, field_alignment)` for a `size_t`. -/
def alignUp (n : Nat) : Nat := (n + 7) / 8 * 8

/-- `align_up(n, field_alignment)` for a `uint8_t`. -/
def alignUpByte (n : UInt8) : UInt8 := (n + 7) &&& ~~~7

/-- `sizeof(item)`. -/
def sizeofItem : Nat := 80

/-- `memcpy` to an offset in an array. -/
def memcpy (data : Bytes) (offset : Nat) (bytes : Bytes) : Bytes :=
  data.take offset ++ bytes ++ data.drop (offset + bytes.length)

/-- The bytes at an offset. -/
def readAt (data : Bytes) (offset n : Nat) : Bytes := (data.drop offset).take n

namespace Insertion

/-- `item_size` of the data for a new item. -/
def size (insertion : Insertion) : Nat :=
  sizeofItem + alignUp insertion.key.length + alignUp insertion.asciiPrefix.length +
    insertion.data.length

/-- `_key_size` of the new item. -/
def keySize (insertion : Insertion) : UInt8 := UInt8.ofNat insertion.key.length

/-- `_ascii_prefix_size` of the new item. -/
def asciiPrefixSize (insertion : Insertion) : UInt8 := UInt8.ofNat insertion.asciiPrefix.length

/-- Where the prefix of the new item begins. -/
def prefixAt (insertion : Insertion) : Nat := (alignUpByte insertion.keySize).toNat

/-- Where the value of the new item begins. -/
def valueAt (insertion : Insertion) : Nat :=
  (alignUpByte insertion.keySize).toNat + (alignUpByte insertion.asciiPrefixSize).toNat

/-- `_data` of the new item. -/
def layout (insertion : Insertion) : Bytes :=
  let data := List.replicate (insertion.size - sizeofItem) 0
  let data := memcpy data 0 (insertion.key.take insertion.keySize.toNat)
  let data :=
    memcpy data insertion.prefixAt (insertion.asciiPrefix.take insertion.asciiPrefixSize.toNat)
  memcpy data insertion.valueAt insertion.data

/-- What the new item reads as its key. -/
def storedKey (insertion : Insertion) : Bytes :=
  readAt insertion.layout 0 insertion.keySize.toNat

end Insertion

/-- Bytes that are written from an offset on leave others as they are. -/
def Leaves (bytes : Bytes) (offset : Nat) (written : Bytes) : Prop :=
  bytes.drop offset <+: written ∨ written <+: bytes.drop offset

/-- Whether a field is still there can be computed. -/
instance decidableLeaves (bytes : Bytes) (offset : Nat) (written : Bytes) :
    Decidable (Leaves bytes offset written) :=
  inferInstanceAs (Decidable (_ ∨ _))

/-- The sizes of the key and of the prefix have 8 bits, and no field is written over the bytes of
another one, unless with the same bytes. -/
structure Insertion.Kept (insertion : Insertion) : Prop where
  key_le : insertion.key.length ≤ 255
  prefix_le : insertion.asciiPrefix.length ≤ 255
  key_prefix : Leaves insertion.key insertion.prefixAt insertion.asciiPrefix
  key_value : Leaves insertion.key insertion.valueAt insertion.data
  prefix_value :
    Leaves insertion.asciiPrefix (insertion.valueAt - insertion.prefixAt) insertion.data

/-- Whether an insertion keeps its fields apart can be computed. -/
instance decidableKept (insertion : Insertion) : Decidable insertion.Kept :=
  decidable_of_iff (insertion.key.length ≤ 255 ∧ insertion.asciiPrefix.length ≤ 255 ∧
      Leaves insertion.key insertion.prefixAt insertion.asciiPrefix ∧
      Leaves insertion.key insertion.valueAt insertion.data ∧
      Leaves insertion.asciiPrefix (insertion.valueAt - insertion.prefixAt) insertion.data)
    ⟨fun h => ⟨h.1, h.2.1, h.2.2.1, h.2.2.2.1, h.2.2.2.2⟩,
      fun h => ⟨h.key_le, h.prefix_le, h.key_prefix, h.key_value, h.prefix_value⟩⟩

/-! ### Items -/

/-- `item`. `serial` is the number of the item among all that were created. It is not in the source. -/
structure Item where
  version : UInt64
  keyHash : UInt64
  expiry : Option Int
  valueSize : UInt32
  refCount : UInt16
  keySize : UInt8
  asciiPrefixSize : UInt8
  data : Bytes
  serial : Nat
  deriving DecidableEq, Repr

namespace Item

/-- The constructor of `item`. -/
def create (hash : Bytes → UInt64) (insertion : Insertion) (version : UInt64) (serial : Nat) :
    Item where
  version := version
  keyHash := hash insertion.key
  expiry := insertion.expiry
  valueSize := UInt32.ofNat insertion.data.length
  refCount := 0
  keySize := insertion.keySize
  asciiPrefixSize := insertion.asciiPrefixSize
  data := insertion.layout
  serial := serial

/-- `key`. -/
def key (it : Item) : Bytes := readAt it.data 0 it.keySize.toNat

/-- `ascii_prefix`. -/
def asciiPrefix (it : Item) : Bytes :=
  readAt it.data (alignUpByte it.keySize).toNat it.asciiPrefixSize.toNat

/-- `value`. -/
def value (it : Item) : Bytes :=
  readAt it.data ((alignUpByte it.keySize).toNat + (alignUpByte it.asciiPrefixSize).toNat)
    it.valueSize.toNat

/-- `item_size` of an item. -/
def size (it : Item) : Nat :=
  sizeofItem + alignUp it.keySize.toNat + alignUp it.asciiPrefixSize.toNat + it.valueSize.toNat

/-- `operator==`. Sizes and bytes of the keys are compared. -/
def same (it it' : Item) : Bool := it.keyHash == it'.keyHash && it.key == it'.key

/-- `item_key_cmp`. -/
def hasKey (hash : Bytes → UInt64) (key : Bytes) (it : Item) : Bool :=
  it.keyHash == hash key && it.key == key

end Item

/-! ### Numbers -/

/-- The value of digits, the highest one first. -/
def digitsValue (ds : Bytes) : Nat := ds.foldl (fun n c => n * 10 + (c.toNat - 48)) 0

/-- The character is a decimal digit. -/
def isDigit (c : UInt8) : Bool := 48 ≤ c && c ≤ 57

/-- `to_sstring` of a 64-bit number. -/
def toSstring (n : UInt64) : Bytes := (Nat.toDigits 10 n.toNat).map fun c => UInt8.ofNat c.toNat

/-- `boost::lexical_cast<uint64_t>`, for a text that does not begin with a minus sign. -/
def lexicalCast (text : Bytes) : Option UInt64 :=
  let digits := if text.head? = some 43 then text.tail else text
  if digits ≠ [] ∧ digits.all isDigit ∧ digitsValue digits < 2 ^ 64 then
    some (UInt64.ofNat (digitsValue digits))
  else none

/-- The number that a value is. Spaces at the end are left out. -/
def integral (value : Bytes) : Option UInt64 :=
  if value.head? = some 45 then none else lexicalCast (value.rdropWhile (· == 32))

/-- `data_as_integral`. -/
def Item.dataAsIntegral (it : Item) : Option UInt64 := integral it.value

end Netstar.Spec.Memcached
