import Netstar.Proofs.Http.Matcher
import Netstar.Proofs.Json.Formatter
import Netstar.Spec.Http.FileHandler

/-!
# `Netstar.Proofs.Http.FileHandler`: when a file name stays inside the root directory

The file name is the root directory followed by the remainder of the url without its first slash.
Nothing looks at the names in it, so two dots go back as they do in any path, and without a slash at
its end the last name of the root directory goes on in the remainder. The walk behind the last slash
of the root directory decides where the name leads to (`inside_fullPath_iff`), and `/index.html`
leads on from there.
-/

set_option autoImplicit false

namespace Netstar.Proofs.Http

open Netstar.Lib.PathNames
open Netstar.Proofs.Json
open Netstar.Spec.Core (SstringFault)
open Netstar.Spec.Http
open Netstar.Spec.Http.Routes (ruleLoop)
open Netstar.Spec.Json

/-! ### C strings -/

/-- A C string ends at the first NUL of either part. -/
theorem cStr_append (a b : List UInt8) : cStr (a ++ b) = cStr a ++ added a b := by
  rw [added]
  split
  case isTrue h =>
    have hlength : (a.takeWhile (· ≠ 0)).length ≠ a.length := by
      intro heq
      rw [← (List.takeWhile_prefix _).eq_of_length heq] at h
      simpa using List.mem_takeWhile_imp h
    rw [cStr, List.takeWhile_append, if_neg hlength, List.append_nil, cStr]
  case isFalse h =>
    have hplain : ∀ b ∈ a, decide (b ≠ 0) = true := by
      intro b hb
      rw [decide_eq_true_eq]
      rintro rfl
      exact h hb
    rw [cStr, List.takeWhile_append_of_pos hplain, cStr, List.takeWhile_eq_self_iff.mpr hplain,
      cStr]

/-! ### Places -/

/-- The root directory with a path behind it. -/
theorem inside_fullPath_iff (cwd : List (List UInt8)) (docRoot path : List UInt8) :
    Inside cwd docRoot (cStr (docRoot ++ path)) ↔ StaysInside cwd docRoot path := by
  have hname : cStr (docRoot ++ path) =
      directoryPart (cStr docRoot) ++ (namePart (cStr docRoot) ++ added docRoot path) := by
    rw [← List.append_assoc, directoryPart_append_namePart, cStr_append]
  rw [Inside, hname, resolvePath_append (directoryPart_cases _)]
  rfl

/-- Behind a root directory that ends with a slash the remainder may go back only over names that it
goes forward over again. -/
theorem staysInside_iff_of_slash {cwd : List (List UInt8)} {docRoot path : List UInt8}
    (hslash : docRoot.getLast? = some separator) (hnul : 0 ∉ docRoot) :
    StaysInside cwd docRoot path ↔
      (resolvePath cwd docRoot).drop
          ((resolvePath cwd docRoot).length - (reduceNames (names (cStr path))).1) <+:
        (reduceNames (names (cStr path))).2 := by
  obtain ⟨a, rfl⟩ := List.getLast?_eq_some_iff.mp hslash
  have hroot : cStr (a ++ [separator]) = a ++ [separator] := by
    rw [cStr, List.takeWhile_eq_self_iff]
    intro b hb
    rw [decide_eq_true_eq]
    rintro rfl
    exact hnul hb
  have hdirectory : directoryPart (a ++ [separator]) = a ++ [separator] :=
    List.rdropWhile_concat_neg _ _ _ (by simp)
  have hname : namePart (a ++ [separator]) = [] := List.rtakeWhile_concat_neg _ _ _ (by simp)
  rw [← prefix_follow_iff]
  simp only [StaysInside, hroot, hdirectory, hname, added, if_neg hnul, List.nil_append]
  rw [baseOf, if_neg (by simp)]

/-- A path that is not empty leads on with the names behind a slash. -/
theorem resolvePath_append_slash {cwd : List (List UInt8)} {a b : List UInt8} (ha : a ≠ []) :
    resolvePath cwd (a ++ separator :: b) = walkNames (resolvePath cwd a) (names b) := by
  rw [resolvePath, resolvePath, names_append, walkNames_append, startOf, startOf,
    List.head?_append_of_ne_nil _ ha]

/-- The index of a directory that is inside is inside. -/
theorem inside_index {cwd : List (List UInt8)} {docRoot fullPath : List UInt8}
    (hne : cStr fullPath ≠ []) (h : Inside cwd docRoot (cStr fullPath)) :
    Inside cwd docRoot (cStr (fullPath ++ text "/index.html")) := by
  rw [cStr_append, added]
  split
  · rw [List.append_nil]
    exact h
  · have hindex : cStr (text "/index.html") = separator :: text "index.html" := rfl
    have hnames : names (text "index.html") = [text "index.html"] := by decide
    rw [hindex, Inside, resolvePath_append_slash hne, hnames]
    exact h.trans (List.prefix_append _ _)

/-! ### The names that a call uses -/

section
variable {h : DirectoryHandler} {fs : FileSystem} {fullPath : List UInt8} {req : HttpRequest}
  {rep : HttpReply}

/-- Behind `file_type` the file is opened, or the index of the directory. -/
theorem found_accesses {type : DirectoryEntryType} :
    ∀ a ∈ (h.found fs fullPath type req rep).1,
      a.name = cStr fullPath ∨ a.name = cStr (fullPath ++ text "/index.html") := by
  have hread : ∀ fileName, ∀ a ∈ (h.read fs fileName req rep).1, a.name = cStr fileName := by
    intro fileName a ha
    rw [List.mem_singleton.mp ha]
    rfl
  rw [DirectoryHandler.found]
  split
  case isFalse => exact fun a ha => Or.inl (hread fullPath a ha)
  case isTrue =>
    split
    · nofun
    · nofun
    · split
      · nofun
      · rename_i fullPath' hpath
        obtain ⟨rfl, -⟩ := toSstring_eq_ok_iff.mp hpath
        exact fun a ha => Or.inr (hread _ a ha)

/-- All names of a call are inside when the first one is. -/
theorem handle_inside_iff {cwd : List (List UInt8)} {path : List UInt8}
    (hindex : req.param.index (text "path") = .ok path) :
    (∀ a ∈ (h.handle fs req rep).1, Inside cwd h.docRoot a.name) ↔
      2 ^ 32 ≤ h.docRoot.length + path.length ∨ StaysInside cwd h.docRoot path := by
  have hbind : (req.param.index (text "path")).bind (fun path => toSstring (h.docRoot ++ path)) =
      toSstring (h.docRoot ++ path) := by
    rw [hindex]
    rfl
  rw [DirectoryHandler.handle, hbind]
  split
  case h_1 fault hsize =>
    refine iff_of_true (fun a ha => by cases ha) (Or.inl ?_)
    by_contra hlt
    rw [toSstring_eq_ok_iff.mpr ⟨rfl, by rw [List.length_append]; omega⟩] at hsize
    cases hsize
  case h_2 fullPath hsize =>
    obtain ⟨rfl, hlt⟩ := toSstring_eq_ok_iff.mp hsize
    rw [List.length_append] at hlt
    rw [or_iff_right (Nat.not_le.mpr hlt), ← inside_fullPath_iff, List.forall_mem_cons]
    refine and_iff_left_of_imp fun hinside => ?_
    split
    · exact fun a ha => by cases ha
    · rename_i type htype
      have hne : cStr (h.docRoot ++ path) ≠ [] := by
        intro hnil
        rw [hnil, fs.fileType_nil] at htype
        cases htype
      intro a ha
      rcases found_accesses a ha with hname | hname
      · rw [hname]
        exact hinside
      · rw [hname]
        exact inside_index hne hinside
    · exact fun a ha => by cases ha

end

/-! ### The way of a request -/

/-- A route with a remainder sets its parameter to what is left of the url. -/
theorem remainderRule_get {H : Type} {route param url : List UInt8} {handler handler' : H}
    {params params' : Parameters}
    (h : (remainderRule route param handler).get url params = (some handler', params')) :
    params' = params.set param (url.drop route.length) := by
  rw [MatchRule.get] at h
  split at h
  case h_1 => cases h
  case h_2 ind params₁ hloop =>
    rw [← show params₁ = params' from congrArg Prod.snd h]
    rw [remainderRule, matchLoop, Matcher.match] at hloop
    split at hloop
    case h_1 => cases hloop
    case h_2 ind' params₂ hstr =>
      split at hstr
      case isFalse => cases hstr
      case isTrue =>
        cases hstr
        rw [matchLoop, match_entire] at hloop
        cases hloop
        rfl

/-- The loop passes over rules that return null. -/
theorem ruleLoop_passed {H : Type} {url : List UInt8} {before : List (MatchRule H)}
    (rules : List (MatchRule H)) (params : Parameters)
    (h : ∀ b ∈ before, ∀ params, (b.get url params).1 = none) :
    ∃ params', ruleLoop url (before ++ rules) params = ruleLoop url rules params' := by
  induction before generalizing params with
  | nil => exact ⟨params, rfl⟩
  | cons b before ih =>
    obtain ⟨params', hparams'⟩ := ih .empty fun b' hb' => h b' (List.mem_cons_of_mem _ hb')
    refine ⟨params', ?_⟩
    have hb := h b (List.mem_cons_self ..) params
    rw [List.cons_append, ruleLoop]
    split
    case h_1 handler params₁ hget =>
      rw [hget] at hb
      cases hb
    case h_2 => exact hparams'

/-- A request that a route dispatches gets the handler of the route and the remainder. -/
theorem dispatch_eq {H : Type} (d : RemainderDispatch H) :
    (d.routes.dispatch d.req).1 = some d.handler ∧
      (d.routes.dispatch d.req).2.param (text "path") = some d.remainder := by
  obtain ⟨params, hpassed⟩ := ruleLoop_passed
    (remainderRule d.route (text "path") d.handler :: d.after) d.req.param d.passed
  have hget : ∃ params', (remainderRule d.route (text "path") d.handler).get d.req.path params =
      (some d.handler, params') := ⟨_, Prod.ext (d.matched params) rfl⟩
  obtain ⟨params', hget⟩ := hget
  have hfound : d.routes.getHandler (str2type d.req.method) d.req.path d.req.param =
      (some d.handler, params') := by
    rw [Routes.getHandler, d.no_exact, d.rules_eq]
    show ruleLoop _ _ _ = _
    rw [hpassed, ruleLoop, hget]
  rw [Routes.dispatch, hfound]
  refine ⟨rfl, ?_⟩
  show params' (text "path") = some d.remainder
  rw [remainderRule_get hget, Parameters.set, Function.update_self]
  rfl

/-- When all file names that a request makes the handler use are inside the root directory. -/
theorem directoryHandler_inside_iff {H : Type} (d : RemainderDispatch H) (h : DirectoryHandler)
    (fs : FileSystem) (rep : HttpReply) (cwd : List (List UInt8)) :
    (∀ a ∈ (h.handle fs (d.routes.dispatch d.req).2 rep).1, Inside cwd h.docRoot a.name) ↔
      RemainderSafe cwd h.docRoot d.remainder := by
  obtain ⟨-, hparam⟩ := dispatch_eq d
  cases hremainder : d.remainder with
  | nil =>
    -- `operator[]` has no slash to pass over, and it throws
    refine iff_of_true ?_ trivial
    rw [hremainder] at hparam
    have hindex : (d.routes.dispatch d.req).2.param.index (text "path") = .error .outOfRange := by
      rw [Parameters.index, Parameters.path, hparam]
      rfl
    rw [DirectoryHandler.handle, hindex]
    exact fun a ha => by cases ha
  | cons c path =>
    rw [hremainder] at hparam
    exact handle_inside_iff ((index_eq_ok_iff hparam).mpr (List.cons_ne_nil c path))

/-- A request for `/s/../x`, where `/s` is a route with a remainder. -/
def climbing : RemainderDispatch Unit where
  routes := ⟨fun _ _ => none, fun _ => [remainderRule (text "/s") (text "path") ()]⟩
  route := text "/s"
  handler := ()
  before := []
  after := []
  req := ⟨text "GET", text "/s/../x", fun _ => none, fun _ => none, .empty⟩
  rules_eq := rfl
  no_exact := rfl
  passed := nofun
  matched _ := rfl

/-- A file system without files. -/
def noFiles : FileSystem := ⟨fun _ => .ok none, fun _ => .error 2, rfl⟩

/-- With the root directory `/w/` the handler asks for the file `/w/../x`. -/
theorem not_inside_climbing :
    ¬∀ a ∈ ((DirectoryHandler.mk (text "/w/") none).handle noFiles
        (climbing.routes.dispatch climbing.req).2 .create).1, Inside [] (text "/w/") a.name := by
  intro h
  have hmem : .fileType (text "/w/../x") ∈ ((DirectoryHandler.mk (text "/w/") none).handle noFiles
      (climbing.routes.dispatch climbing.req).2 .create).1 := by
    have hindex : (climbing.routes.dispatch climbing.req).2.param.index (text "path") =
        .ok (text "../x") := rfl
    have hpath : (Except.ok (text "../x")).bind (fun path => toSstring (text "/w/" ++ path)) =
        .ok (text "/w/../x") := toSstring_eq_ok_iff.mpr ⟨rfl, by decide⟩
    rw [DirectoryHandler.handle, hindex, hpath]
    exact List.mem_cons_self ..
  have houtside : ¬resolvePath [] (text "/w/") <+: resolvePath [] (text "/w/../x") := by decide
  exact houtside (h _ hmem)

end Netstar.Proofs.Http
