import Mathlib.Logic.Function.Basic
import Netstar.Spec.Http.Exception

/-!
# `Netstar.Spec.Http.Matcher`: `http/matcher.cc`, `http/matchrules.hh` and the lookup of `routes`

A match rule walks over the url with its matchers. A matcher gets the position where its part starts
and returns the position behind it, where `none` is `npos`, and a `param_matcher` puts its part into
the parameters. A `parameters` object is modelled by its lookup. A handler is a pointer, so its type
is a parameter here.

The second half says what the lookup is for: the url is cut into pieces, one for each matcher.
-/

set_option autoImplicit false

namespace Netstar.Spec.Http

open Netstar.Spec.Core (SstringFault)

/-- The slash between the parts of a path. -/
def slash : UInt8 := 47

/-! ### `sstring` -/

/-- `find(char)`. -/
def findChar (s : List UInt8) (t : UInt8) (pos : Nat) : Option Nat :=
  ((s.drop pos).idxOf? t).map (pos + ·)

/-- The loop of `find(const basic_sstring&)` from the position `it` on, with what is there. -/
def findLoop (s : List UInt8) : List UInt8 → Nat → Option Nat
  | [], _ => none
  | c :: rest, it => if s.isPrefixOf (c :: rest) then some it else findLoop s rest (it + 1)

/-- `find(const basic_sstring&)`. -/
def findString (url s : List UInt8) (pos : Nat) : Option Nat := findLoop s (url.drop pos) pos

/-- `substr` without a length. -/
def substr (s : List UInt8) (start : Nat) : Except SstringFault (List UInt8) :=
  if s.length < start then .error .outOfRange else .ok (s.drop start)

/-! ### `parameters` -/

/-- `parameters`. -/
abbrev Parameters := List UInt8 → Option (List UInt8)

namespace Parameters

/-- An object without parameters, as `clear` leaves it. -/
def empty : Parameters := fun _ => none

/-- `path` and `at`. -/
def path (params : Parameters) (key : List UInt8) : Except SstringFault (List UInt8) :=
  match params key with
  | some value => .ok value
  | none => .error .outOfRange

/-- `operator[]`. -/
def index (params : Parameters) (key : List UInt8) : Except SstringFault (List UInt8) := do
  let value ← params.path key
  substr value 1

/-- `set`. -/
def set (params : Parameters) (key value : List UInt8) : Parameters :=
  Function.update params key (some value)

end Parameters

/-! ### Matchers -/

/-- `str_matcher` and `param_matcher`. -/
inductive Matcher where
  | str (cmp : List UInt8)
  | param (name : List UInt8) (entirePath : Bool)
  deriving DecidableEq, Repr

/-- `find_end_param`. -/
def findEndParam (url : List UInt8) (ind : Nat) (entirePath : Bool) : Nat :=
  let pos := if entirePath then some url.length else findChar url slash (ind + 1)
  match pos with
  | none => url.length
  | some pos => pos

/-- `param_matcher::match` and `str_matcher::match`. -/
def Matcher.match (url : List UInt8) (ind : Nat) (params : Parameters) :
    Matcher → Option Nat × Parameters
  | .param name entirePath =>
    let last := findEndParam url ind entirePath
    if last = ind then
      -- An empty parameter matches only as the rest of the path.
      if entirePath then (some ind, params.set name [])
      else (none, params)
    else (some last, params.set name ((url.drop ind).take (last - ind)))
  | .str cmp =>
    if cmp.length + ind ≤ url.length ∧ findString url cmp ind = some ind ∧
        (url.length = cmp.length + ind ∨ url[cmp.length + ind]? = some slash) then
      (some (cmp.length + ind), params)
    else (none, params)

/-- `match_rule`. -/
structure MatchRule (H : Type) where
  matchList : List Matcher
  handler : H

/-- The loop of `match_rule::get`. -/
def matchLoop (url : List UInt8) : List Matcher → Nat → Parameters → Option Nat × Parameters
  | [], ind, params => (some ind, params)
  | m :: ms, ind, params =>
    match m.match url ind params with
    | (none, params) => (none, params)
    | (some ind, params) => matchLoop url ms ind params

/-- `match_rule::get`. -/
def MatchRule.get {H : Type} (rule : MatchRule H) (url : List UInt8) (params : Parameters) :
    Option H × Parameters :=
  match matchLoop url rule.matchList 0 params with
  | (none, params) => (none, params)
  | (some ind, params) => (if url.length ≤ ind + 1 then some rule.handler else none, params)

/-! ### `routes` -/

/-- `operation_type`. -/
inductive OperationType where
  | get
  | post
  | put
  | delete
  deriving DecidableEq, Repr

/-- `str2type`. -/
def str2type (type : List UInt8) : OperationType :=
  if type = text "DELETE" then .delete
  else if type = text "POST" then .post
  else if type = text "PUT" then .put
  else .get

/-- The tables of `routes`. -/
structure Routes (H : Type) where
  map : OperationType → List UInt8 → Option H
  rules : OperationType → List (MatchRule H)

namespace Routes

variable {H : Type}

/-- `routes::get_exact_match`. -/
def getExactMatch (r : Routes H) (type : OperationType) (url : List UInt8) : Option H :=
  r.map type url

/-- The loop of `routes::get_handler`. -/
def ruleLoop (url : List UInt8) : List (MatchRule H) → Parameters → Option H × Parameters
  | [], params => (none, params)
  | rule :: rules, params =>
    match rule.get url params with
    | (some handler, params) => (some handler, params)
    | (none, _) => ruleLoop url rules Parameters.empty

/-- `routes::get_handler`. -/
def getHandler (r : Routes H) (type : OperationType) (url : List UInt8) (params : Parameters) :
    Option H × Parameters :=
  match r.getExactMatch type url with
  | some handler => (some handler, params)
  | none => ruleLoop url (r.rules type) params

/-- `routes::normalize_url`. -/
def normalizeUrl (url : List UInt8) : List UInt8 :=
  if url.length < 2 ∨ url[url.length - 1]? ≠ some slash then url else url.take (url.length - 1)

end Routes

/-! ### What the lookup is for -/

namespace Matcher

/-- The name of a parameter. -/
def name? : Matcher → Option (List UInt8)
  | .str _ => none
  | .param name _ => some name

/-- The matcher may take the rest of the url. -/
def isEntire : Matcher → Bool
  | .str _ => false
  | .param _ entirePath => entirePath

/-- A piece of a url for a matcher: the string itself, a slash and at least one other character, or
nothing or anything behind a slash. -/
def PieceOf : Matcher → List UInt8 → Prop
  | .str cmp, piece => piece = cmp
  | .param _ false, piece => ∃ w, piece = slash :: w ∧ w ≠ [] ∧ slash ∉ w
  | .param _ true, piece => piece = [] ∨ ∃ w, piece = slash :: w

/-- A piece that may also be a slash alone where a parameter should be. -/
def LoosePieceOf : Matcher → List UInt8 → Prop
  | .str cmp, piece => piece = cmp
  | .param _ false, piece => ∃ w, piece = slash :: w ∧ slash ∉ w
  | .param _ true, piece => piece = [] ∨ ∃ w, piece = slash :: w

end Matcher

/-- The url is the concatenation of pieces for the matchers. -/
def Splits (ms : List Matcher) (url : List UInt8) (pieces : List (List UInt8)) : Prop :=
  List.Forall₂ Matcher.PieceOf ms pieces ∧ url = pieces.flatten

/-- As `Splits`, with pieces that may be a slash alone. -/
def LooselySplits (ms : List Matcher) (url : List UInt8) (pieces : List (List UInt8)) : Prop :=
  List.Forall₂ Matcher.LoosePieceOf ms pieces ∧ url = pieces.flatten

/-- A url that starts with a slash and does not end with one. -/
structure RequestPath where
  url : List UInt8
  starts : url.head? = some slash
  ends : url.getLast? ≠ some slash

/-- The strings of a rule start with a slash and do not end with one, its parameters have different
names, and only the last parameter takes the rest of the url. -/
structure RuleOk (ms : List Matcher) : Prop where
  str_starts : ∀ cmp, .str cmp ∈ ms → cmp.head? = some slash
  str_ends : ∀ cmp, .str cmp ∈ ms → cmp.getLast? ≠ some slash
  names_nodup : (ms.filterMap Matcher.name?).Nodup
  entire_last : ms.Pairwise fun m m' => m.isEntire = true → m'.name? = none

/-- Routes with such rules. A rule deletes its handler, so no two rules have the same one. -/
structure RouteTable (H : Type) where
  routes : Routes H
  rules_ok : ∀ type, ∀ rule ∈ routes.rules type, RuleOk rule.matchList
  handlers_nodup : ∀ type, ((routes.rules type).map MatchRule.handler).Nodup

/-- The parameters of a rule with their pieces. -/
def paramPieces (ms : List Matcher) (pieces : List (List UInt8)) :
    List (List UInt8 × List UInt8) :=
  (ms.zip pieces).filterMap fun m => m.1.name?.map (·, m.2)

/-- Exactly the parameters of a rule are set, and each is read as its piece without the slash. -/
structure ParamsOf (ms : List Matcher) (pieces : List (List UInt8)) (params : Parameters) :
    Prop where
  set_iff : ∀ key, (params key).isSome ↔ key ∈ ms.filterMap Matcher.name?
  index : ∀ p ∈ paramPieces ms pieces, params.index p.1 = .ok (p.2.drop 1)

/-- `get_handler` returns the handler of the exact match, else that of the first rule for which the
url splits, with the parameters of this rule, else null. -/
def GetHandlerRight {H : Type} (r : Routes H) (type : OperationType) (url : List UInt8) : Prop :=
  let result := r.getHandler type url .empty
  match r.getExactMatch type url with
  | some handler => result = (some handler, .empty)
  | none =>
    (∃ before rule after pieces, r.rules type = before ++ rule :: after ∧
        (∀ b ∈ before, ∀ ps, ¬Splits b.matchList url ps) ∧ Splits rule.matchList url pieces ∧
        result.1 = some rule.handler ∧ ParamsOf rule.matchList pieces result.2) ∨
      (∀ rule ∈ r.rules type, ∀ ps, ¬Splits rule.matchList url ps) ∧ result = (none, .empty)

/-! ### When it does that -/

/-- A matcher that takes the rest of the url is the last one. -/
def EntireLast (ms : List Matcher) : Prop := ∀ m ∈ ms.dropLast, m.isEntire = false

/-- The url splits for the matchers, perhaps with an empty segment for a parameter. -/
def Candidate (ms : List Matcher) (url : List UInt8) : Prop :=
  (∃ pieces, Splits ms url pieces) ∨ EntireLast ms ∧ ∃ pieces, LooselySplits ms url pieces

/-- The url splits without an empty segment for a parameter, and what is left for a matcher that
takes the rest is not empty. -/
def FitsWell (ms : List Matcher) (url : List UInt8) : Prop :=
  EntireLast ms ∧ ∃ pieces, Splits ms url pieces ∧ [] ∉ pieces

/-- There is an exact match, or the first rule that is a candidate fits well. -/
def FirstFitsWell {H : Type} (r : Routes H) (type : OperationType) (url : List UInt8) : Prop :=
  (r.getExactMatch type url).isSome ∨
    ∀ before rule after, r.rules type = before ++ rule :: after →
      (∀ b ∈ before, ¬Candidate b.matchList url) → Candidate rule.matchList url →
        FitsWell rule.matchList url

end Netstar.Spec.Http
