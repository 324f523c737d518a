import Netstar.Lib.PathNames
import Netstar.Spec.Http.Routes

/-!
# `Netstar.Spec.Http.FileHandler`: `directory_handler` of `http/file_handler.cc`

The handler asks the file system for the type of a file and reads it. The file system is a
parameter. It gets the name of a file as a C string, and the names that it gets are the trace of a
call. A transformer is a function here.

A request comes to the handler through `set_query_param`, `normalize_url` and the rules of `routes`.
-/

set_option autoImplicit false

namespace Netstar.Spec.Http

open Netstar.Lib.PathNames
open Netstar.Spec.Core (SstringFault)
open Netstar.Spec.Json

/-! ### The file system -/

/-- `directory_entry_type`. -/
inductive DirectoryEntryType where
  | blockDevice
  | charDevice
  | directory
  | fifo
  | link
  | regular
  | socket
  deriving DecidableEq, Repr

/-- Why a call of the handler fails: an exception of an `sstring`, or an error of the system. -/
inductive FileFault where
  | sstring (fault : SstringFault)
  | system (errno : Nat)
  deriving DecidableEq, Repr

/-- `reactor::file_type` and the content of a file that is opened. The empty name is the name of no
file. -/
structure FileSystem where
  fileType : List UInt8 → Except Nat (Option DirectoryEntryType)
  read : List UInt8 → Except Nat (List UInt8)
  fileType_nil : fileType [] = .ok none

/-- The file system gets the name of a file. -/
inductive FileAccess where
  | fileType (name : List UInt8)
  | openFile (name : List UInt8)
  deriving DecidableEq, Repr

/-- The name that the file system gets. -/
def FileAccess.name : FileAccess → List UInt8
  | .fileType name => name
  | .openFile name => name

/-! ### `file_interaction_handler` -/

/-- `directory_handler`. -/
structure DirectoryHandler where
  docRoot : List UInt8
  transformer : Option (List UInt8 → HttpRequest → List UInt8 → List UInt8)

/-- `find_last_of`. -/
def findLastOf (s : List UInt8) (c : UInt8) : Option Nat :=
  (s.reverse.idxOf? c).map (s.length - 1 - ·)

/-- `get_extension`. No position is greater than `npos`. -/
def getExtension (file : List UInt8) : List UInt8 :=
  match findLastOf file period, findLastOf file slash with
  | some dot, some slash => if slash < dot then file.drop (dot + 1) else []
  | _, _ => []

/-- `request::get_url`. -/
def HttpRequest.getUrl (req : HttpRequest) : List UInt8 :=
  text "http" ++ text "://" ++ (req.headers (text "Host")).getD [] ++ req.url

/-- `redirect_if_needed`. There is no redirection for a url that ends with a slash. -/
def redirectIfNeeded (req : HttpRequest) (rep : HttpReply) :
    Except SstringFault (Option HttpReply) :=
  if req.url.getLast? ≠ some slash then do
    let location ← toSstring (req.getUrl ++ [slash])
    return some ({ rep with status := .movedPermanently }.addHeader (text "Location") location).done
  else .ok none

/-- `file_interaction_handler::read`. -/
def DirectoryHandler.read (h : DirectoryHandler) (fs : FileSystem) (fileName : List UInt8)
    (req : HttpRequest) (rep : HttpReply) : List FileAccess × Except FileFault HttpReply :=
  let extension := getExtension fileName
  let rep := rep.setContentType extension
  ([.openFile (cStr fileName)],
    match fs.read (cStr fileName) with
    | .error errno => .error (.system errno)
    | .ok data =>
      match toSstring (rep.content ++ data) with
      | .error fault => .error (.sstring fault)
      | .ok content =>
        let content :=
          match h.transformer with
          | some transform => transform content req extension
          | none => content
        .ok { rep with content := content }.done)

/-- `directory_handler::handle` behind `file_type`, for a file with the type. -/
def DirectoryHandler.found (h : DirectoryHandler) (fs : FileSystem) (fullPath : List UInt8)
    (type : DirectoryEntryType) (req : HttpRequest) (rep : HttpReply) :
    List FileAccess × Except FileFault HttpReply :=
  if type = .directory then
    match redirectIfNeeded req rep with
    | .error fault => ([], .error (.sstring fault))
    | .ok (some rep) => ([], .ok rep)
    | .ok none =>
      match toSstring (fullPath ++ text "/index.html") with
      | .error fault => ([], .error (.sstring fault))
      | .ok fullPath => h.read fs fullPath req rep
  else h.read fs fullPath req rep

/-- `directory_handler::handle`. -/
def DirectoryHandler.handle (h : DirectoryHandler) (fs : FileSystem) (req : HttpRequest)
    (rep : HttpReply) : List FileAccess × Except FileFault HttpReply :=
  match (req.param.index (text "path")).bind fun path => toSstring (h.docRoot ++ path) with
  | .error fault => ([], .error (.sstring fault))
  | .ok fullPath =>
    let rest : List FileAccess × Except FileFault HttpReply :=
      match fs.fileType (cStr fullPath) with
      | .error errno => ([], .error (.system errno))
      | .ok (some type) => h.found fs fullPath type req rep
      | .ok none => ([], .ok (rep.setStatus .notFound []).done)
    (.fileType (cStr fullPath) :: rest.1, rest.2)

/-! ### The way of a request -/

/-- The url that is looked up. -/
def HttpRequest.path (req : HttpRequest) : List UInt8 :=
  Routes.normalizeUrl (setQueryParam req.url req.queryParameters).1

/-- What `generate_reply` and `routes::handle` do with a request before its handler gets it. -/
def Routes.dispatch {H : Type} (r : Routes H) (req : HttpRequest) : Option H × HttpRequest :=
  let found := r.getHandler (str2type req.method) req.path req.param
  (found.1, { req with
    queryParameters := (setQueryParam req.url req.queryParameters).2
    param := found.2 })

/-- The rule of `routes::add` for a url with a remainder. -/
def remainderRule {H : Type} (route param : List UInt8) (handler : H) : MatchRule H :=
  ⟨[.str route, .param param true], handler⟩

/-- A request that a route with a remainder named `path` dispatches: no url matches it exactly, the
rules before the route do not match, and the route does. -/
structure RemainderDispatch (H : Type) where
  routes : Routes H
  route : List UInt8
  handler : H
  before : List (MatchRule H)
  after : List (MatchRule H)
  req : HttpRequest
  rules_eq : routes.rules (str2type req.method) =
    before ++ remainderRule route (text "path") handler :: after
  no_exact : routes.getExactMatch (str2type req.method) req.path = none
  passed : ∀ b ∈ before, ∀ params, (b.get req.path params).1 = none
  matched : ∀ params, ((remainderRule route (text "path") handler).get req.path params).1 =
    some handler

/-- What is left of the url behind the route. -/
def RemainderDispatch.remainder {H : Type} (d : RemainderDispatch H) : List UInt8 :=
  d.req.path.drop d.route.length

/-! ### Inside the root directory -/

/-- A file name leads to a place inside a directory. Both are C strings. -/
def Inside (cwd : List (List UInt8)) (directory name : List UInt8) : Prop :=
  resolvePath cwd (cStr directory) <+: resolvePath cwd name

/-- What a path adds to the name of a directory, as a C string. -/
def added (directory path : List UInt8) : List UInt8 := if 0 ∈ directory then [] else cStr path

/-- The walk behind the last slash of the root directory goes back, and then it goes forward to the
root directory or through it. -/
def StaysInside (cwd : List (List UInt8)) (docRoot path : List UInt8) : Prop :=
  let root := cStr docRoot
  let rest := namePart root ++ added docRoot path
  resolvePath cwd root <+: follow (baseOf cwd (directoryPart root) rest) (reduceNames (names rest))

/-- The file names are inside: nothing is left of the url, so that there is no file name, or the
file name is too long, or the walk stays inside. -/
def RemainderSafe (cwd : List (List UInt8)) (docRoot : List UInt8) : List UInt8 → Prop
  | [] => True
  | _ :: path => 2 ^ 32 ≤ docRoot.length + path.length ∨ StaysInside cwd docRoot path

end Netstar.Spec.Http
