import Netstar.Spec.Http.Matcher
import Netstar.Spec.Http.UrlDecode

/-!
# `Netstar.Spec.Http.Routes`: `routes::handle` and `routes::exception_reply` of `http/routes.cc`

An exception of a program has a type of its own, and the handlers that are registered for exceptions
may look at it. What the catch clauses see of it is its kind. A future has a result after some
delay, and `routes::handle` fails when it throws or when its future fails. The only exception that
comes out of the replies themselves is the `overflow_error` of an `sstring`.
-/

set_option autoImplicit false

namespace Netstar.Spec.Http

open Netstar.Spec.Core (SstringFault)
open Netstar.Spec.Json

/-! ### `reply` and `request` -/

/-- `status_strings`. -/
def StatusType.line : StatusType → List UInt8
  | .ok => text " 200 OK\r\n"
  | .created => text " 201 Created\r\n"
  | .accepted => text " 202 Accepted\r\n"
  | .noContent => text " 204 No Content\r\n"
  | .multipleChoices => text " 300 Multiple Choices\r\n"
  | .movedPermanently => text " 301 Moved Permanently\r\n"
  | .movedTemporarily => text " 302 Moved Temporarily\r\n"
  | .notModified => text " 304 Not Modified\r\n"
  | .badRequest => text " 400 Bad Request\r\n"
  | .unauthorized => text " 401 Unauthorized\r\n"
  | .forbidden => text " 403 Forbidden\r\n"
  | .notFound => text " 404 Not Found\r\n"
  | .internalServerError => text " 500 Internal Server Error\r\n"
  | .notImplemented => text " 501 Not Implemented\r\n"
  | .badGateway => text " 502 Bad Gateway\r\n"
  | .serviceUnavailable => text " 503 Service Unavailable\r\n"

/-- The mappings of `mime_types`. -/
def mappings : List (List UInt8 × List UInt8) :=
  [(text "json", text "application/json"), (text "gif", text "image/gif"),
    (text "htm", text "text/html"), (text "css", text "text/css"),
    (text "js", text "text/javascript"), (text "html", text "text/html"),
    (text "jpg", text "image/jpeg"), (text "png", text "image/png"),
    (text "txt", text "text/plain"), (text "ico", text "image/x-icon"),
    (text "bin", text "application/octet-stream"),
    (text "proto", text "application/vnd.google.protobuf; " ++
      text "proto=io.prometheus.client.MetricFamily; encoding=delimited")]

/-- `mime_types::extension_to_type`. -/
def extensionToType (extension : List UInt8) : List UInt8 :=
  match mappings.find? fun m => m.1 = extension with
  | some m => m.2
  | none => text "text/plain"

/-- `reply`. The headers are a map, so they are modelled by their lookup. -/
structure HttpReply where
  status : StatusType
  headers : List UInt8 → Option (List UInt8)
  version : List UInt8
  content : List UInt8
  responseLine : List UInt8

namespace HttpReply

/-- `reply::reply`. -/
def create : HttpReply := ⟨.ok, fun _ => none, [], [], []⟩

/-- `add_header`. -/
def addHeader (rep : HttpReply) (h value : List UInt8) : HttpReply :=
  { rep with headers := Function.update rep.headers h (some value) }

/-- `set_status`. -/
def setStatus (rep : HttpReply) (status : StatusType) (content : List UInt8) : HttpReply :=
  { rep with status := status, content := if content ≠ [] then content else rep.content }

/-- `set_content_type`. -/
def setContentType (rep : HttpReply) (contentType : List UInt8) : HttpReply :=
  rep.addHeader (text "Content-Type") (extensionToType contentType)

/-- `done`. -/
def done (rep : HttpReply) : HttpReply :=
  { rep with responseLine := text "HTTP/" ++ rep.version ++ rep.status.line }

/-- `done(content_type)`. -/
def doneWith (rep : HttpReply) (contentType : List UInt8) : HttpReply :=
  (rep.setContentType contentType).done

end HttpReply

/-- `request`, with the fields that the handlers here read. -/
structure HttpRequest where
  method : List UInt8
  url : List UInt8
  headers : List UInt8 → Option (List UInt8)
  queryParameters : QueryParameters
  param : Parameters

/-- `get_query_param`. -/
def HttpRequest.getQueryParam (req : HttpRequest) (name : List UInt8) : List UInt8 :=
  (req.queryParameters name).getD []

/-! ### Exceptions -/

/-- The exceptions of a program, with what the catch clauses see of them. -/
structure ExceptionTypes (E : Type) where
  kind : E → ExceptionKind
  missingParam : List UInt8 → E
  kind_missingParam : ∀ param, kind (missingParam param) = missingParamException param

/-- An `exception_handler_fun`. It returns a reply, or throws the exception again or another one. -/
abbrev ExceptionHandler (E : Type) := E → Except E HttpReply

/-- The loop of `exception_reply` over the handlers in the order of their ids. -/
def exceptionLoop {E : Type} : List (ExceptionHandler E) → E → Except E HttpReply
  | [], eptr => .error eptr
  | e :: exceptions, eptr =>
    match e eptr with
    | .ok rep => .ok rep
    | .error eptr => exceptionLoop exceptions eptr

/-- `routes::exception_reply`. -/
def exceptionReply {E : Type} (types : ExceptionTypes E) (exceptions : List (ExceptionHandler E))
    (eptr : E) : Except SstringFault HttpReply :=
  match exceptionLoop exceptions eptr with
  | .ok rep => .ok rep
  | .error eptr => do
    let content ← exceptionBody (types.kind eptr)
    return (HttpReply.create.setStatus (types.kind eptr).status content).doneWith (text "json")

/-! ### `routes::handle` -/

/-- A future of a reply. -/
structure ReplyFuture (F : Type) where
  delay : Nat
  result : Except F HttpReply

/-- What a call of a handler does. -/
inductive HandlerResult (E : Type) where
  | throws (e : E)
  | returns (f : ReplyFuture E)

/-- `handler_base`. -/
structure HttpHandler (E : Type) where
  mandatoryParam : List (List UInt8)
  handle : List UInt8 → HttpRequest → HttpReply → HandlerResult E

/-- `make_ready_future`. -/
def readyReply {F : Type} (rep : HttpReply) : ReplyFuture F := ⟨0, .ok rep⟩

/-- `handle_exception`. -/
def ReplyFuture.handleException {E : Type} (f : ReplyFuture E)
    (func : E → Except SstringFault HttpReply) : ReplyFuture SstringFault where
  delay := f.delay
  result :=
    match f.result with
    | .ok rep => .ok rep
    | .error eptr => func eptr

/-- The loop over the mandatory parameters, with `verify_param`. -/
def verifyParams {E : Type} (types : ExceptionTypes E) (req : HttpRequest) :
    List (List UInt8) → Except E Unit
  | [] => .ok ()
  | i :: params =>
    if req.getQueryParam i = [] then .error (types.missingParam i)
    else verifyParams types req params

/-- The reply of a `redirect_exception` that is thrown directly. -/
def redirectReply (url : List UInt8) : HttpReply :=
  ((HttpReply.create.addHeader (text "Location") url).setStatus .movedPermanently []).doneWith
    (text "json")

/-- The catch clauses of `routes::handle`. -/
def catchException {E : Type} (types : ExceptionTypes E) (exceptions : List (ExceptionHandler E))
    (e : E) : Except SstringFault (ReplyFuture SstringFault) :=
  match types.kind e with
  | .redirect url => do
    let url ← toSstring url
    return readyReply (redirectReply url)
  | _ => do
    let rep ← exceptionReply types exceptions e
    return readyReply rep

/-- `routes::handle`. -/
def Routes.handle {H E : Type} (r : Routes H) (handlers : H → HttpHandler E)
    (types : ExceptionTypes E) (exceptions : List (ExceptionHandler E)) (path : List UInt8)
    (req : HttpRequest) (rep : HttpReply) : Except SstringFault (ReplyFuture SstringFault) :=
  let found := r.getHandler (str2type req.method) (Routes.normalizeUrl path) req.param
  let req := { req with param := found.2 }
  match found.1 with
  | some handler =>
    -- A missing parameter throws before the handler runs.
    match verifyParams types req (handlers handler).mandatoryParam with
    | .error e => catchException types exceptions e
    | .ok () =>
      match (handlers handler).handle path req rep with
      | .throws e => catchException types exceptions e
      | .returns f => .ok (f.handleException (exceptionReply types exceptions))
  | none => do
    -- Without a handler the reply is 404 with the body of `not_found_exception`.
    let content ← exceptionBody (notFoundException (text "Not found"))
    return readyReply ((HttpReply.create.setStatus .notFound content).doneWith (text "json"))

/-! ### What both ways to fail should give -/

/-- The reply of a call, when it has one. -/
def replyOf (outcome : Except SstringFault (ReplyFuture SstringFault)) : Option HttpReply :=
  match outcome with
  | .ok ⟨_, .ok rep⟩ => some rep
  | _ => none

/-- The handlers with a result of their own. -/
def withResult {H E : Type} (handlers : H → HttpHandler E) (result : HandlerResult E) :
    H → HttpHandler E :=
  fun h => { handlers h with handle := fun _ _ _ => result }

/-- `routes::handle` has a reply when the handler throws, and has the same one when the handler
returns a future that fails. -/
def FailuresAgree {H E : Type} (r : Routes H) (handlers : H → HttpHandler E)
    (types : ExceptionTypes E) (exceptions : List (ExceptionHandler E)) (path : List UInt8)
    (req : HttpRequest) (rep : HttpReply) (e : E) : Prop :=
  ∃ reply,
    replyOf (r.handle (withResult handlers (.throws e)) types exceptions path req rep) =
        some reply ∧
      ∀ delay, replyOf (r.handle (withResult handlers (.returns ⟨delay, .error e⟩)) types
        exceptions path req rep) = some reply

/-- A message that fits into the body of a reply. -/
def MessageFits (msg : List UInt8) : Prop := msg.length < 2 ^ 32 ∧ (cStr msg).length + 28 < 2 ^ 32

/-- A handler that is registered answers the exception, or the exception that they leave has a
message that fits. -/
def Answered {E : Type} (types : ExceptionTypes E) (exceptions : List (ExceptionHandler E))
    (e : E) : Prop :=
  match exceptionLoop exceptions e with
  | .ok _ => True
  | .error left => MessageFits (types.kind left).message

/-- When an exception has the same reply in both ways. A `redirect_exception` does when the handlers
that are registered answer it with the redirection. -/
def RepliesAgree {E : Type} (types : ExceptionTypes E) (exceptions : List (ExceptionHandler E))
    (e : E) : Prop :=
  match types.kind e with
  | .redirect url => url.length < 2 ^ 32 ∧ exceptionLoop exceptions e = .ok (redirectReply url)
  | _ => Answered types exceptions e

/-- When a request has the same reply in both ways: no handler is found, or a mandatory parameter is
missing and this is answered, or the exception has the same reply in both ways. -/
def AgreesWhen {H E : Type} (r : Routes H) (handlers : H → HttpHandler E)
    (types : ExceptionTypes E) (exceptions : List (ExceptionHandler E)) (path : List UInt8)
    (req : HttpRequest) (e : E) : Prop :=
  match (r.getHandler (str2type req.method) (Routes.normalizeUrl path) req.param).1 with
  | none => True
  | some h =>
    match (handlers h).mandatoryParam.find? fun i => req.getQueryParam i = [] with
    | some param => Answered types exceptions (types.missingParam param)
    | none => RepliesAgree types exceptions e

end Netstar.Spec.Http
