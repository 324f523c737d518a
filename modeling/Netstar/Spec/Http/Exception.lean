import Netstar.Spec.Http.ChunkedOutput
import Netstar.Spec.Json.Formatter

/-!
# `Netstar.Spec.Http.Exception`: the exceptions of `http/exception.hh`

The catch clauses of `routes` tell four kinds of exceptions apart. The other classes of
`exception.hh` are `base_exception`s with a status of their own.
-/

set_option autoImplicit false

namespace Netstar.Spec.Http

open Netstar.Spec.Core (SstringFault)
open Netstar.Spec.Json

/-- `reply::status_type`. -/
inductive StatusType where
  | ok
  | created
  | accepted
  | noContent
  | multipleChoices
  | movedPermanently
  | movedTemporarily
  | notModified
  | badRequest
  | unauthorized
  | forbidden
  | notFound
  | internalServerError
  | notImplemented
  | badGateway
  | serviceUnavailable
  deriving DecidableEq, Repr

/-- The number of a status. -/
def StatusType.code : StatusType → Nat
  | .ok => 200
  | .created => 201
  | .accepted => 202
  | .noContent => 204
  | .multipleChoices => 300
  | .movedPermanently => 301
  | .movedTemporarily => 302
  | .notModified => 304
  | .badRequest => 400
  | .unauthorized => 401
  | .forbidden => 403
  | .notFound => 404
  | .internalServerError => 500
  | .notImplemented => 501
  | .badGateway => 502
  | .serviceUnavailable => 503

/-- An exception: a `redirect_exception`, another `base_exception`, another `std::exception` with
the characters of `what()`, or anything else. -/
inductive ExceptionKind where
  | redirect (url : List UInt8)
  | base (msg : List UInt8) (status : StatusType)
  | std (what : List UInt8)
  | other
  deriving DecidableEq, Repr

/-- The status that `exception_reply` gives to the reply of an exception. -/
def ExceptionKind.status : ExceptionKind → StatusType
  | .redirect _ => .movedPermanently
  | .base _ status => status
  | .std _ => .internalServerError
  | .other => .internalServerError

/-- The message that `exception_reply` gives to the reply of an exception. -/
def ExceptionKind.message : ExceptionKind → List UInt8
  | .redirect _ => []
  | .base msg _ => msg
  | .std what => cStr what
  | .other => text "Unknown unhandled exception"

/-- `not_found_exception`. -/
def notFoundException (msg : List UInt8) : ExceptionKind := .base msg .notFound

/-- `bad_request_exception`. -/
def badRequestException (msg : List UInt8) : ExceptionKind := .base msg .badRequest

/-- `missing_param_exception`. -/
def missingParamException (param : List UInt8) : ExceptionKind :=
  badRequestException (text "Missing mandatory parameter '" ++ param ++ text "'")

/-- The elements of a `json_exception` after `set`. -/
def jsonException (msg : List UInt8) (code : StatusType) : List (List UInt8 × Bool × JsonValue) :=
  [(text "message", true, .str msg), (text "code", true, .int code.code)]

/-- The content of the reply of an exception, which `to_json` returns as a `std::string` and
`set_status` takes as an `sstring`. -/
def exceptionBody (e : ExceptionKind) : Except SstringFault (List UInt8) := do
  let content ← baseToJson (jsonElements (jsonException e.message e.status))
  toSstring content

end Netstar.Spec.Http
