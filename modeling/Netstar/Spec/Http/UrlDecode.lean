import Mathlib.Logic.Function.Basic
import Netstar.Lib.PercentCoding

/-!
# `Netstar.Spec.Http.UrlDecode`: the query of a url in `http/httpd.hh`

`url_decode` replaces the escapes of a string, and `set_query_param` splits the query of a request
url into its parameters. A `char` is signed, and the digits of an escape are added up as numbers
before the sum becomes a `char` again. The strings are lists of bytes. A position becomes the list of
the bytes from there on, and the result `npos` of a search becomes `none`.

`query_parameters` is a map, so it is modelled by its lookup.
-/

set_option autoImplicit false

namespace Netstar.Spec.Http

open Netstar.Lib.PercentCoding

/-- `hex_to_byte`. -/
def hexToByte (c : UInt8) : Int :=
  let c := c.toInt8.toInt
  if 97 ≤ c ∧ c ≤ 122 then c - 97 + 10
  else if 65 ≤ c ∧ c ≤ 90 then c - 65 + 10
  else c - 48

/-- `hexstr_to_char`, on the two characters that it reads. -/
def hexstrToChar (hi lo : UInt8) : UInt8 := UInt8.ofInt (hexToByte hi * 16 + hexToByte lo)

/-- `url_decode`. The result is what it puts in `out` when it returns `true`. -/
def urlDecode : List UInt8 → Option (List UInt8)
  | [] => some []
  | c :: rest =>
    if c = percent then
      match rest with
      | hi :: lo :: rest => (urlDecode rest).map (hexstrToChar hi lo :: ·)
      | _ => none
    else if c = plus then (urlDecode rest).map (space :: ·)
    else (urlDecode rest).map (c :: ·)

/-- `query_parameters`. -/
abbrev QueryParameters := List UInt8 → Option (List UInt8)

/-- `add_param`. For an empty piece `length() - 1` is `npos`, which is also what `find` returns. -/
def addParam (params : QueryParameters) (param : List UInt8) : QueryParameters :=
  match param.idxOf? equals with
  | none =>
    match urlDecode param with
    | some key => Function.update params key (some [])
    | none => params
  | some split =>
    -- The sign is the last byte of the piece, so the value is empty.
    if param.length - 1 ≤ split then
      match urlDecode (param.take split) with
      | some key => Function.update params key (some [])
      | none => params
    else
      match urlDecode (param.take split), urlDecode (param.drop (split + 1)) with
      | some key, some value => Function.update params key (some value)
      | _, _ => params

/-- The loop of `set_query_param` over the pieces between the ampersands, from `curr` on. -/
def addParams (params : QueryParameters) (rest : List UInt8) : QueryParameters :=
  match _h : rest.idxOf? ampersand with
  | none => addParam params rest
  | some n => addParams (addParam params (rest.take n)) (rest.drop (n + 1))
termination_by rest.length
decreasing_by
  have hlt := (List.idxOf?_eq_some_iff.mp _h).1
  simp only [List.length_drop]
  omega

/-- `set_query_param`: the url without its query, and the parameters. -/
def setQueryParam (url : List UInt8) (params : QueryParameters) : List UInt8 × QueryParameters :=
  match url.idxOf? question with
  | none => (url, params)
  | some pos => (url.take pos, addParams params (url.drop (pos + 1)))

/-! ### Queries -/

/-- A pair of a query, with the text that codes it. The equals sign may be left out when the value is
empty. -/
structure QueryPair where
  key : List UInt8
  value : List UInt8
  keyText : List UInt8
  valueText : List UInt8
  withEquals : Bool
  key_ne_nil : key ≠ []
  key_encodes : Encodes keyText key
  value_encodes : Encodes valueText value
  equals_of_value : value ≠ [] → withEquals = true

/-- The text of a pair. -/
def QueryPair.text (p : QueryPair) : List UInt8 :=
  if p.withEquals then p.keyText ++ equals :: p.valueText else p.keyText

/-- A query: pairs with different keys. -/
structure Query where
  pairs : List QueryPair
  ne_nil : pairs ≠ []
  keys_nodup : (pairs.map (·.key)).Nodup

/-- The pairs with an ampersand between them. -/
def joinPairs : List QueryPair → List UInt8
  | [] => []
  | [p] => p.text
  | p :: ps => p.text ++ ampersand :: joinPairs ps

/-- The text of a query. -/
def Query.text (q : Query) : List UInt8 := joinPairs q.pairs

/-- `url_decode` returns `true` exactly when each percent sign is followed by two hexadecimal digits,
and what it then yields is what the string stands for. -/
def UrlDecodeRight (s : List UInt8) : Prop :=
  ((urlDecode s).isSome ↔ EscapesValid s) ∧ ∀ out, urlDecode s = some out → Decodes s out

/-- `set_query_param` returns the path and sets exactly the pairs of the query. -/
def SetQueryParamRight (path : List UInt8) (q : Query) : Prop :=
  let r := setQueryParam (path ++ question :: q.text) fun _ => none
  r.1 = path ∧ ∀ key value, r.2 key = some value ↔ ∃ p ∈ q.pairs, p.key = key ∧ p.value = value

/-- The string ends inside an escape: a percent sign has less than two characters after it, when the
two characters after every percent sign before it are passed over. -/
inductive EscapeCutShort : List UInt8 → Prop where
  | cut {s : List UInt8} (hs : s.length < 2) : EscapeCutShort (percent :: s)
  | escape {hi lo : UInt8} {s : List UInt8} (h : EscapeCutShort s) :
      EscapeCutShort (percent :: hi :: lo :: s)
  | other {c : UInt8} {s : List UInt8} (hc : c ≠ percent) (h : EscapeCutShort s) :
      EscapeCutShort (c :: s)

end Netstar.Spec.Http
