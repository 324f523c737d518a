import Netstar.Lib.JsonText
import Netstar.Spec.Core.Sstring

/-!
# `Netstar.Spec.Json.Formatter`: the texts of `json/formatter.cc` and `json/json_elements.cc`

`formatter::to_json` has an overload for each type of value, and the types nest. Here a value is a
tree, and each kind of node has the body of its overload. A text is a list of bytes. The formatter
returns an `sstring`, which throws when its size does not fit into 32 bits, and `json_base::to_json`
a `std::string`. Floating point numbers and dates are left out.

`jsonOf` is the JSON value that the text of a value should be read as.
-/

set_option autoImplicit false

namespace Netstar.Spec.Json

open Netstar.Lib.JsonText
open Netstar.Spec.Core (SstringFault)

/-! ### `formatter` -/

/-- A text becomes an `sstring`. -/
def toSstring (text : List UInt8) : Except SstringFault (List UInt8) :=
  if 2 ^ 32 ≤ text.length then .error .overflow else .ok text

/-- `c_str()`, read as a C string. -/
def cStr (s : List UInt8) : List UInt8 := s.takeWhile (· ≠ 0)

/-- `formatter::to_json(const char*)`. -/
def charsToJson (str : List UInt8) : Except SstringFault (List UInt8) := do
  let str ← toSstring str
  let res ← toSstring (quote :: str)
  toSstring (res ++ [quote])

/-- `formatter::to_json(const sstring&)`, with the conversion of a `std::string`. -/
def stringToJson (str : List UInt8) : Except SstringFault (List UInt8) := do
  let str ← toSstring str
  charsToJson (cStr str)

/-- `formatter::state`. -/
inductive FormatterState where
  | none
  | array
  | map
  deriving DecidableEq, Repr

/-- `formatter::begin`. -/
def FormatterState.begin : FormatterState → List UInt8
  | .array => [openBracket]
  | .map => [openBrace]
  | .none => []

/-- `formatter::end`. -/
def FormatterState.close : FormatterState → List UInt8
  | .array => [closeBracket]
  | .map => [closeBrace]
  | .none => []

/-- The loop of `formatter::to_json(state, Iter, Iter)` behind its first `n` items. An item is what
`to_json` returns for it. -/
def rangeLoop (n : Nat) :
    List (Except SstringFault (List UInt8)) → Except SstringFault (List UInt8)
  | [] => .ok []
  | item :: items => do
    let text ← item
    let res ← rangeLoop (n + 1) items
    return (if n ≠ 0 then [comma] else []) ++ text ++ res

/-- `formatter::to_json(state, Iter, Iter)`. -/
def rangeToJson (s : FormatterState) (items : List (Except SstringFault (List UInt8))) :
    Except SstringFault (List UInt8) := do
  let res ← rangeLoop 0 items
  toSstring (s.begin ++ res ++ s.close)

/-- `formatter::to_json(state, const std::pair<K, V>&)` in a map. -/
def pairToJson (first : List UInt8) (second : Except SstringFault (List UInt8)) :
    Except SstringFault (List UInt8) := do
  let first ← stringToJson first
  let res ← toSstring (first ++ [colon])
  let second ← second
  toSstring (res ++ second)

/-! ### `json_base` -/

/-- `json_base_element`, with what `to_string` returns. -/
structure JsonElement where
  name : List UInt8
  set : Bool
  toString : Except SstringFault (List UInt8)

/-- `json_builder`. -/
structure JsonBuilder where
  result : List UInt8
  first : Bool

/-- `json_builder::json_builder`. -/
def JsonBuilder.create : JsonBuilder := ⟨[openBrace], true⟩

/-- The blank behind a colon. -/
def blank : UInt8 := 32

/-- `json_builder::add(const string&, const string&)`. -/
def JsonBuilder.addText (b : JsonBuilder) (name str : List UInt8) : JsonBuilder where
  result := b.result ++ (if b.first then [] else [comma, blank]) ++
    (quote :: (name ++ [quote, colon, blank]) ++ str)
  first := false

/-- `json_builder::add(json_base_element*)`. -/
def JsonBuilder.add (b : JsonBuilder) (element : JsonElement) : Except SstringFault JsonBuilder :=
  if element.set = false then .ok b
  else do
    let str ← element.toString
    return b.addText element.name str

/-- `json_base::to_json`. -/
def baseToJson (elements : List JsonElement) : Except SstringFault (List UInt8) := do
  let res ← elements.foldlM JsonBuilder.add .create
  return res.result ++ [closeBrace]

/-! ### Values -/

/-- What `formatter::to_json` is called with. A `json_base` has a name and a flag `_set` for each
element, and a map has its entries in the order of its iterators. -/
inductive JsonValue where
  | int (n : Int)
  | bool (b : Bool)
  | str (s : List UInt8)
  | vector (vec : List JsonValue)
  | map (entries : List (List UInt8 × JsonValue))
  | base (elements : List (List UInt8 × Bool × JsonValue))

mutual

/-- `formatter::to_json`. -/
def toJson : JsonValue → Except SstringFault (List UInt8)
  | .int n => toSstring (decimalInt n)
  | .bool b => toSstring (if b then [116, 114, 117, 101] else [102, 97, 108, 115, 101])
  | .str s => stringToJson s
  | .vector vec => rangeToJson .array (itemsToJson vec)
  | .map entries => rangeToJson .map (entriesToJson entries)
  | .base elements => do
    let text ← baseToJson (jsonElements elements)
    toSstring text

/-- `to_json` of the items of a vector. -/
def itemsToJson : List JsonValue → List (Except SstringFault (List UInt8))
  | [] => []
  | v :: vec => toJson v :: itemsToJson vec

/-- `to_json` of the entries of a map. -/
def entriesToJson : List (List UInt8 × JsonValue) → List (Except SstringFault (List UInt8))
  | [] => []
  | (key, v) :: entries => pairToJson key (toJson v) :: entriesToJson entries

/-- The elements of a `json_base`. `to_string` of a `json_element` formats its value. -/
def jsonElements : List (List UInt8 × Bool × JsonValue) → List JsonElement
  | [] => []
  | (name, set, v) :: elements => ⟨name, set, toJson v⟩ :: jsonElements elements

end

/-! ### The meaning of a value -/

mutual

/-- The JSON value of a value. An element that is not set is absent. -/
def jsonOf : JsonValue → Json
  | .int n => .number n 0
  | .bool b => .bool b
  | .str s => .string s
  | .vector vec => .array (jsonsOf vec)
  | .map entries => .object (entriesOf entries)
  | .base elements => .object (membersOf elements)

/-- The elements of an array. -/
def jsonsOf : List JsonValue → List Json
  | [] => []
  | v :: vec => jsonOf v :: jsonsOf vec

/-- The entries of a map. -/
def entriesOf : List (List UInt8 × JsonValue) → List (List UInt8 × Json)
  | [] => []
  | (key, v) :: entries => (key, jsonOf v) :: entriesOf entries

/-- The members of an object that are set. -/
def membersOf : List (List UInt8 × Bool × JsonValue) → List (List UInt8 × Json)
  | [] => []
  | (name, set, v) :: elements =>
    if set = false then membersOf elements else (name, jsonOf v) :: membersOf elements

end

mutual

/-- Each string in a value stands for itself between quotes: it is UTF-8 without quotes, backslashes
and control characters. An element that is not set does not count. -/
def isPlainValue : JsonValue → Bool
  | .int _ => true
  | .bool _ => true
  | .str s => isPlainText s && isUtf8 s
  | .vector vec => arePlainValues vec
  | .map entries => arePlainEntries entries
  | .base elements => arePlainElements elements

/-- All the elements are plain. -/
def arePlainValues : List JsonValue → Bool
  | [] => true
  | v :: vec => isPlainValue v && arePlainValues vec

/-- All the entries are plain. -/
def arePlainEntries : List (List UInt8 × JsonValue) → Bool
  | [] => true
  | (key, v) :: entries =>
    isPlainText key && isUtf8 key && isPlainValue v && arePlainEntries entries

/-- All the members that are set are plain. -/
def arePlainElements : List (List UInt8 × Bool × JsonValue) → Bool
  | [] => true
  | (name, set, v) :: elements =>
    (set = false || (isPlainText name && isUtf8 name && isPlainValue v)) &&
      arePlainElements elements

end

/-- The size of parts with a separator between them. -/
def sizeWith (separator : Nat) (sizes : List Nat) : Nat :=
  sizes.sum + separator * (sizes.length - 1)

mutual

/-- The size of the text of a value. -/
def textSize : JsonValue → Nat
  | .int n => (decimalInt n).length
  | .bool b => if b then 4 else 5
  | .str s => s.length + 2
  | .vector vec => sizeWith 1 (itemSizes vec) + 2
  | .map entries => sizeWith 1 (entrySizes entries) + 2
  | .base elements => sizeWith 2 (elementSizes elements) + 2

/-- The sizes of the elements. -/
def itemSizes : List JsonValue → List Nat
  | [] => []
  | v :: vec => textSize v :: itemSizes vec

/-- The sizes of the entries, with their keys. -/
def entrySizes : List (List UInt8 × JsonValue) → List Nat
  | [] => []
  | (key, v) :: entries => (key.length + 3 + textSize v) :: entrySizes entries

/-- The sizes of the members that are set, with their names. -/
def elementSizes : List (List UInt8 × Bool × JsonValue) → List Nat
  | [] => []
  | (name, set, v) :: elements =>
    if set = false then elementSizes elements
    else (name.length + 4 + textSize v) :: elementSizes elements

end

end Netstar.Spec.Json
