import Netstar.Proofs.Json.Formatter
import Netstar.Spec.Http.Routes

/-!
# `Netstar.Proofs.Http.Routes`: the replies of exceptions

An exception that a handler throws goes through the catch clauses of `routes::handle`, and one in
its future through `exception_reply` alone. The clauses differ for a `redirect_exception`: thrown
directly it becomes a redirection before the handlers that are registered are asked, and in a future
it is a `base_exception` like the others. The body of its reply is never empty then, and that of a
redirection is (`exceptionReply_eq_redirect_iff`).
-/

set_option autoImplicit false

namespace Netstar.Proofs.Http

open Netstar.Lib.JsonText
open Netstar.Proofs.Json
open Netstar.Spec.Core (SstringFault)
open Netstar.Spec.Http
open Netstar.Spec.Json

/-! ### The body of a reply -/

/-- A string is formatted when it fits into an `sstring`, and its text does. -/
theorem stringToJson_ok_iff {s : List UInt8} :
    stringToJson s = .ok (quote :: (cStr s ++ [quote])) ↔
      s.length < 2 ^ 32 ∧ (cStr s).length + 2 < 2 ^ 32 := by
  simp only [stringToJson, charsToJson, bind_eq_ok_iff, toSstring_eq_ok_iff]
  constructor
  · rintro ⟨_, ⟨rfl, hs⟩, _, ⟨rfl, -⟩, _, ⟨rfl, -⟩, -, hlast⟩
    rw [List.length_append, List.length_cons, List.length_singleton] at hlast
    exact ⟨hs, by omega⟩
  · rintro ⟨hs, hlast⟩
    refine ⟨s, ⟨rfl, hs⟩, cStr s, ⟨rfl, by omega⟩, quote :: cStr s, ⟨rfl, ?_⟩, rfl, ?_⟩
    · rw [List.length_cons]
      omega
    · rw [List.length_append, List.length_cons, List.length_singleton]
      omega

/-- The text of the body of an exception. -/
def bodyText (e : ExceptionKind) : List UInt8 :=
  (partOf (.base (jsonException e.message e.status))).text

/-- The length of the body of a failure. -/
theorem bodyText_length (e : ExceptionKind) :
    (bodyText e).length = (cStr e.message).length + 28 := by
  have hcode : (decimalInt e.status.code).length = 3 := by cases e.status <;> rfl
  have hmessage : (text "message").length = 7 := rfl
  have hname : (text "code").length = 4 := rfl
  simp only [bodyText, partOf, objectPart, jsonException, elementParts, Bool.true_eq_false,
    if_false, List.map_cons, List.map_nil, Member.text, List.intercalate_cons_cons,
    List.intercalate_singleton, List.length_cons, List.length_append, List.length_nil, hcode,
    hmessage, hname]
  omega

/-- An exception has a body when its message fits. -/
theorem exceptionBody_eq_ok_iff {e : ExceptionKind} {content : List UInt8} :
    exceptionBody e = .ok content ↔ content = bodyText e ∧ MessageFits e.message := by
  have hjson : exceptionBody e = toJson (.base (jsonException e.message e.status)) := rfl
  have hcode : (decimalInt e.status.code).length < 2 ^ 32 := by
    have hthree : (decimalInt e.status.code).length = 3 := by cases e.status <;> rfl
    omega
  have hpresent : present (jsonElements (jsonException e.message e.status)) =
      [(text "message", stringToJson e.message),
        (text "code", toSstring (decimalInt e.status.code))] := rfl
  constructor
  · intro h
    have hsize := toJson_size (hjson ▸ h)
    obtain rfl : content = bodyText e := toJson_text _ _ (hjson ▸ h)
    rw [bodyText_length] at hsize
    obtain ⟨_, hbase, -⟩ := bind_eq_ok_iff.mp h
    obtain ⟨ms, hms, -⟩ := baseToJson_eq_ok_iff.mp hbase
    rw [hpresent] at hms
    cases ms with
    | nil => cases hms
    | cons m ms =>
      have hmessage := (Prod.mk.inj (List.cons.inj hms).1).2
      rw [stringToJson_eq_ok hmessage] at hmessage
      exact ⟨rfl, (stringToJson_ok_iff.mp hmessage).1, hsize⟩
  · rintro ⟨rfl, hmessage, hsize⟩
    have hms : present (jsonElements (jsonException e.message e.status)) =
        [(text "message", quote :: (cStr e.message ++ [quote])),
          (text "code", decimalInt e.status.code)].map fun m => (m.1, .ok m.2) := by
      rw [hpresent, stringToJson_ok_iff.mpr ⟨hmessage, by omega⟩,
        toSstring_eq_ok_iff.mpr ⟨rfl, hcode⟩]
      rfl
    have hbase := baseToJson_eq_ok_iff.mpr ⟨_, hms, rfl⟩
    rw [jsonElements_text _ _ hms] at hbase
    refine bind_eq_ok_iff.mpr ⟨_, hbase, toSstring_eq_ok_iff.mpr ⟨rfl, ?_⟩⟩
    rw [← bodyText_length] at hsize
    exact hsize

/-- A failure has a body. -/
theorem bodyText_ne_nil (e : ExceptionKind) : bodyText e ≠ [] := by
  intro h
  have hlength := bodyText_length e
  rw [h, List.length_nil] at hlength
  omega

/-! ### `exception_reply` -/

section
variable {E : Type} {types : ExceptionTypes E} {exceptions : List (ExceptionHandler E)} {e : E}

/-- The reply of an exception that no registered handler answers. -/
def leftReply (kind : ExceptionKind) : HttpReply :=
  (HttpReply.create.setStatus kind.status (bodyText kind)).doneWith (text "json")

/-- The first handler that knows the exception answers it. -/
theorem exceptionReply_of_answer {rep : HttpReply} (h : exceptionLoop exceptions e = .ok rep) :
    exceptionReply types exceptions e = .ok rep := by
  rw [exceptionReply, h]

/-- When no handler answers, there is a reply if the message of what they leave fits. -/
theorem exceptionReply_eq_ok_iff {left : E} {rep : HttpReply}
    (h : exceptionLoop exceptions e = .error left) :
    exceptionReply types exceptions e = .ok rep ↔
      rep = leftReply (types.kind left) ∧ MessageFits (types.kind left).message := by
  rw [exceptionReply, h]
  show (exceptionBody (types.kind left) >>= _) = _ ↔ _
  rw [bind_eq_ok_iff]
  constructor
  · rintro ⟨content, hbody, hrep⟩
    obtain ⟨rfl, hfits⟩ := exceptionBody_eq_ok_iff.mp hbody
    cases hrep
    exact ⟨rfl, hfits⟩
  · rintro ⟨rfl, hfits⟩
    exact ⟨_, exceptionBody_eq_ok_iff.mpr ⟨rfl, hfits⟩, rfl⟩

/-- An exception has a reply exactly when it is answered. -/
theorem exists_exceptionReply_iff :
    (∃ rep, exceptionReply types exceptions e = .ok rep) ↔ Answered types exceptions e := by
  rw [Answered]
  cases hloop : exceptionLoop exceptions e with
  | ok rep => exact iff_of_true ⟨rep, exceptionReply_of_answer hloop⟩ trivial
  | error left =>
    constructor
    · rintro ⟨rep, h⟩
      exact ((exceptionReply_eq_ok_iff hloop).mp h).2
    · intro h
      exact ⟨_, (exceptionReply_eq_ok_iff hloop).mpr ⟨rfl, h⟩⟩

/-- `exception_reply` gives a redirection only when a registered handler does. -/
theorem exceptionReply_eq_redirect_iff {url : List UInt8} :
    exceptionReply types exceptions e = .ok (redirectReply url) ↔
      exceptionLoop exceptions e = .ok (redirectReply url) := by
  refine ⟨fun h => ?_, exceptionReply_of_answer⟩
  cases hloop : exceptionLoop exceptions e with
  | ok rep =>
    rw [exceptionReply_of_answer hloop] at h
    cases h
    rfl
  | error left =>
    obtain ⟨hrep, -⟩ := (exceptionReply_eq_ok_iff hloop).mp h
    have hcontent : (leftReply (types.kind left)).content = bodyText (types.kind left) := by
      show (if bodyText (types.kind left) ≠ [] then bodyText (types.kind left) else []) = _
      exact if_pos (bodyText_ne_nil _)
    rw [← hrep] at hcontent
    exact absurd hcontent.symm (bodyText_ne_nil _)

/-! ### `routes::handle` -/

/-- A request has a reply when its future has one. -/
theorem replyOf_eq_some_iff {outcome : Except SstringFault (ReplyFuture SstringFault)}
    {rep : HttpReply} :
    replyOf outcome = some rep ↔ ∃ delay, outcome = .ok ⟨delay, .ok rep⟩ := by
  rcases outcome with fault | ⟨delay, fault | rep'⟩ <;> simp [replyOf]

/-- A future that fails has the reply of `exception_reply`. -/
theorem replyOf_deferred_iff {delay : Nat} {rep : HttpReply} :
    replyOf (.ok ((ReplyFuture.mk delay (.error e)).handleException
        (exceptionReply types exceptions))) = some rep ↔
      exceptionReply types exceptions e = .ok rep := by
  rw [replyOf_eq_some_iff]
  constructor
  · rintro ⟨delay', h⟩
    exact congrArg ReplyFuture.result (Except.ok.inj h)
  · intro h
    exact ⟨delay, congrArg (fun result => Except.ok (ReplyFuture.mk delay result)) h⟩

/-- An exception that is thrown has the reply of `exception_reply`, unless it is a redirection. -/
theorem replyOf_catch_iff {rep : HttpReply} (h : ∀ url, types.kind e ≠ .redirect url) :
    replyOf (catchException types exceptions e) = some rep ↔
      exceptionReply types exceptions e = .ok rep := by
  have hcatch : catchException types exceptions e =
      exceptionReply types exceptions e >>= fun rep => .ok (readyReply rep) := by
    rw [catchException]
    split
    case h_1 url hkind => exact absurd hkind (h url)
    case h_2 => rfl
  rw [hcatch, replyOf_eq_some_iff]
  constructor
  · rintro ⟨delay, h⟩
    obtain ⟨rep', hreply, h⟩ := bind_eq_ok_iff.mp h
    cases h
    exact hreply
  · intro h
    exact ⟨0, bind_eq_ok_iff.mpr ⟨rep, h, rfl⟩⟩

/-- A redirection that is thrown has its own reply. -/
theorem replyOf_catch_redirect_iff {url : List UInt8} {rep : HttpReply}
    (h : types.kind e = .redirect url) :
    replyOf (catchException types exceptions e) = some rep ↔
      rep = redirectReply url ∧ url.length < 2 ^ 32 := by
  have hcatch : catchException types exceptions e =
      toSstring url >>= fun url => .ok (readyReply (redirectReply url)) := by
    rw [catchException, h]
    rfl
  rw [hcatch, replyOf_eq_some_iff]
  constructor
  · rintro ⟨delay, hbind⟩
    obtain ⟨url', hurl, hready⟩ := bind_eq_ok_iff.mp hbind
    obtain ⟨hsame, hsize⟩ := toSstring_eq_ok_iff.mp hurl
    cases hready
    exact ⟨congrArg redirectReply hsame, hsize⟩
  · rintro ⟨rfl, hsize⟩
    exact ⟨0, bind_eq_ok_iff.mpr ⟨url, toSstring_eq_ok_iff.mpr ⟨rfl, hsize⟩, rfl⟩⟩

/-- When the exception of a handler has the same reply in both ways. -/
theorem repliesAgree_iff :
    (∃ rep, replyOf (catchException types exceptions e) = some rep ∧
        exceptionReply types exceptions e = .ok rep) ↔ RepliesAgree types exceptions e := by
  rw [RepliesAgree]
  split
  case h_1 url hkind =>
    constructor
    · rintro ⟨rep, hcatch, hreply⟩
      obtain ⟨rfl, hsize⟩ := (replyOf_catch_redirect_iff hkind).mp hcatch
      exact ⟨hsize, exceptionReply_eq_redirect_iff.mp hreply⟩
    · rintro ⟨hsize, hloop⟩
      exact ⟨_, (replyOf_catch_redirect_iff hkind).mpr ⟨rfl, hsize⟩,
        exceptionReply_of_answer hloop⟩
  case h_2 hkind =>
    rw [← exists_exceptionReply_iff]
    refine exists_congr fun rep => ?_
    rw [replyOf_catch_iff hkind, and_self]

/-- The loop stops at the first mandatory parameter that is missing. -/
theorem verifyParams_eq (types : ExceptionTypes E) (req : HttpRequest)
    (params : List (List UInt8)) :
    verifyParams types req params =
      match params.find? fun i => req.getQueryParam i = [] with
      | some param => .error (types.missingParam param)
      | none => .ok () := by
  induction params with
  | nil => rfl
  | cons i params ih =>
    rw [verifyParams, List.find?_cons]
    by_cases hi : req.getQueryParam i = []
    · rw [if_pos hi, decide_eq_true hi]
    · rw [if_neg hi, decide_eq_false hi]
      exact ih

end

section
variable {H E : Type} {r : Routes H} {handlers : H → HttpHandler E} {types : ExceptionTypes E}
  {exceptions : List (ExceptionHandler E)} {path : List UInt8} {req : HttpRequest}
  {rep : HttpReply} {result : HandlerResult E}

/-- A request for which no handler is found. -/
theorem replyOf_handle_none
    (hfound : (r.getHandler (str2type req.method) (Routes.normalizeUrl path) req.param).1 = none) :
    replyOf (r.handle handlers types exceptions path req rep) =
      some (leftReply (notFoundException (text "Not found"))) := by
  have hfits : MessageFits (text "Not found") := by
    constructor <;> decide
  have hbody := exceptionBody_eq_ok_iff (e := notFoundException (text "Not found")).mpr ⟨rfl, hfits⟩
  rw [Routes.handle]
  simp only [hfound, hbody]
  rfl

/-- A request whose handler has the result. -/
theorem handle_withResult {h : H}
    (hfound : (r.getHandler (str2type req.method) (Routes.normalizeUrl path) req.param).1 =
      some h) :
    r.handle (withResult handlers result) types exceptions path req rep =
      match (handlers h).mandatoryParam.find? fun i => req.getQueryParam i = [] with
      | some param => catchException types exceptions (types.missingParam param)
      | none =>
        match result with
        | .throws e => catchException types exceptions e
        | .returns f => .ok (f.handleException (exceptionReply types exceptions)) := by
  have hparams := verifyParams_eq types
    { req with param := (r.getHandler (str2type req.method) (Routes.normalizeUrl path)
      req.param).2 } (handlers h).mandatoryParam
  have hquery : ∀ i, HttpRequest.getQueryParam { req with
      param := (r.getHandler (str2type req.method) (Routes.normalizeUrl path) req.param).2 } i =
        req.getQueryParam i := fun _ => rfl
  simp only [hquery] at hparams
  rw [Routes.handle]
  simp only [hfound, withResult, hparams]
  cases (handlers h).mandatoryParam.find? fun i => req.getQueryParam i = [] <;> rfl

end

/-- When a request has the same reply in both ways. -/
theorem failuresAgree_iff {H E : Type} (r : Routes H) (handlers : H → HttpHandler E)
    (types : ExceptionTypes E) (exceptions : List (ExceptionHandler E)) (path : List UInt8)
    (req : HttpRequest) (rep : HttpReply) (e : E) :
    FailuresAgree r handlers types exceptions path req rep e ↔
      AgreesWhen r handlers types exceptions path req e := by
  rw [FailuresAgree, AgreesWhen]
  cases hfound : (r.getHandler (str2type req.method) (Routes.normalizeUrl path) req.param).1 with
  | none =>
    exact iff_of_true ⟨_, replyOf_handle_none hfound, fun _ => replyOf_handle_none hfound⟩ trivial
  | some h =>
    simp only [handle_withResult hfound]
    cases (handlers h).mandatoryParam.find? fun i => req.getQueryParam i = [] with
    | some param =>
      -- the handler is not called at all
      have hkind : ∀ url, types.kind (types.missingParam param) ≠ .redirect url := by
        intro url
        rw [types.kind_missingParam]
        exact fun h => by cases h
      simp only [replyOf_catch_iff hkind, forall_const, and_self]
      exact exists_exceptionReply_iff
    | none =>
      simp only [replyOf_deferred_iff, forall_const]
      exact repliesAgree_iff

/-- The kinds of exceptions as a program's only exceptions. -/
def plainTypes : ExceptionTypes ExceptionKind where
  kind := id
  missingParam := missingParamException
  kind_missingParam _ := rfl

/-- Routes with a handler for `/`. -/
def rootRoutes : Routes Unit where
  map _ url := if url = [slash] then some () else none
  rules _ := []

/-- A request without parameters. -/
def rootRequest : HttpRequest := ⟨text "GET", [slash], fun _ => none, fun _ => none, .empty⟩

/-- A redirection that is thrown directly has a header that it does not have in a future. -/
theorem not_failuresAgree_redirect :
    ¬FailuresAgree rootRoutes (fun _ => ⟨[], fun _ _ _ => .returns ⟨0, .ok .create⟩⟩) plainTypes []
      [slash] rootRequest .create (.redirect (text "/a")) := by
  have hfound : (rootRoutes.getHandler (str2type rootRequest.method)
      (Routes.normalizeUrl [slash]) rootRequest.param).1 = some () := rfl
  rintro ⟨reply, hdirect, hdeferred⟩
  rw [handle_withResult hfound] at hdirect
  obtain ⟨rfl, -⟩ := (replyOf_catch_redirect_iff rfl).mp hdirect
  have hlater := hdeferred 0
  rw [handle_withResult hfound] at hlater
  cases exceptionReply_eq_redirect_iff.mp (replyOf_deferred_iff.mp hlater)

end Netstar.Proofs.Http
