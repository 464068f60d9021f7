import Pulsate.Control.Api
import Pulsate.Std.Utf8

/-!
# The REST surface (`pulsate-control::serve`)

A request answers with a response, or with none if its handler panics: the connection is then closed. The dashboard's page
is the parameter `indexHtml`.
-/

namespace Pulsate.Control

open Conf (compile CompileError)

/-- What arrives of a request's body before the stream ends, and whether it ends without an error. -/
structure Body where
  received : List UInt8
  complete : Bool
  deriving DecidableEq, Repr

structure Request where
  method : Str
  path : Str
  headers : Headers
  body : Body
  deriving DecidableEq, Repr

structure Response where
  status : Nat
  contentType : Str
  body : Str
  deriving DecidableEq, Repr

def json (status : Nat) (body : Str) : Response := ⟨status, "application/json", body⟩

def problem (code : Code) (status : Nat) (detail : Str) : Response :=
  ⟨status, "application/problem+json",
    object [field "type" code.docsUrl, field "title" code.title, numField "status" status, field "code" code.text,
      field "detail" detail]⟩

/-- A stream that ends with an error leaves the empty text. -/
def collect (body : Body) : Str := Str.fromUtf8Lossy (if body.complete then body.received else [])

def problemsJson (diags : List Flow.Diagnostic) : Str :=
  commaJoined (diags.map (fun d =>
    object [field "code" (configCode d.code), numField "line" d.span.line.toNat, numField "col" d.span.col.toNat,
      field "message" d.message]))

/-! ## Endpoints -/

/-- `CARGO_PKG_VERSION`. -/
def version : Str := "0.3.0"

def info (api : AdminApi) : Response :=
  json 200 (object [field "version" version, numField "generation" api.store.current.generation,
    numField "sites" api.gateway.router.sites.length, numField "upstreams" api.gateway.upstreams.entries.length])

/-- The pools in the order of their names, which is that of the table. -/
def summary (api : AdminApi) : List (Str × Nat) :=
  api.gateway.upstreams.values.map (fun u => (u.name, u.backends.length))

def upstreams (api : AdminApi) : Response :=
  json 200 ("\x7b\"upstreams\":[" ++
    commaJoined ((summary api).map (fun u => object [field "name" u.1, numField "targets" u.2])) ++ "]\x7d")

section

variable (mac digest : List UInt8 → List UInt8) (env : Str → Option Str) (indexHtml : Str)

def audit (api : AdminApi) : Response :=
  json 200 ("\x7b\"verified\":".toList ++ (if Waf.verify mac api.audit then "true".toList else "false".toList) ++
    ",\"entries\":[" ++
    commaJoined (api.audit.map (fun e =>
      object [numField "seq" e.seq.toNat, field "event" e.event, field "hash" e.hash])) ++ "]\x7d")

def validateConfig (text : Str) : Option Response :=
  match compile env text 0 with
  | .ok compiled =>
    some (json 200 ("\x7b\"valid\":true,\"problems\":[" ++ problemsJson compiled.warnings ++ "]\x7d"))
  | .error (.diags diags) =>
    some (json 422 ("\x7b\"valid\":false,\"problems\":[" ++ problemsJson diags ++ "]\x7d"))
  | .error _ => none

def reloadConfig (api : AdminApi) (text : Str) : Option Response × AdminApi :=
  let (result, store) := api.store.reload env text
  let response := match result with
    | .ok generation => some (json 200 (object [field "ok" "true", numField "generation" generation.generation]))
    | .error (.diags diags) =>
      some (json 422 ("\x7b\"ok\":false,\"problems\":[" ++ problemsJson diags ++ "]\x7d"))
    | .error _ => none
  (response, { api with store })

/-! ## Dispatch -/

def authorize (api : AdminApi) (headers : Headers) (scope : Scope) : Except Response Scopes :=
  match bearer headers with
  | none => .error (problem .admUnauthorized 401 "missing bearer token")
  | some token =>
    match api.scopesFor digest token with
    | none => .error (problem .admUnauthorized 401 "unknown token")
    | some scopes =>
      if scopes.satisfies scope then .ok scopes
      else .error (problem .admForbidden 403 "token lacks the required scope")

/-- Only a request with the scope reaches the endpoint. -/
def guarded (api : AdminApi) (headers : Headers) (scope : Scope) (endpoint : Option Response × AdminApi) :
    Option Response × AdminApi :=
  match authorize digest api headers scope with
  | .ok _ => endpoint
  | .error response => (some response, api)

def dispatch (api : AdminApi) (req : Request) : Option Response × AdminApi :=
  if req.method = "GET" ∧ (req.path = "/" ∨ ¬ "/v1" <+: req.path) then
    (some ⟨200, "text/html; charset=utf-8", indexHtml⟩, api)
  else if req.method = "GET" ∧ req.path = "/v1/health" then
    (some (json 200 (object [field "status" "ok"])), api)
  else if req.method = "GET" ∧ req.path = "/v1/info" then
    guarded digest api req.headers .read (some (info api), api)
  else if req.method = "GET" ∧ req.path = "/v1/metrics" then
    guarded digest api req.headers .read
      (some ⟨200, "text/plain; version=0.0.4; charset=utf-8", api.metrics⟩, api)
  else if req.method = "GET" ∧ req.path = "/v1/upstreams" then
    guarded digest api req.headers .read (some (upstreams api), api)
  else if req.method = "GET" ∧ req.path = "/v1/audit" then
    guarded digest api req.headers .admin (some (audit mac api), api)
  else if req.method = "POST" ∧ req.path = "/v1/config/validate" then
    guarded digest api req.headers .write (validateConfig env (collect req.body), api)
  else if req.method = "POST" ∧ req.path = "/v1/config/reload" then
    guarded digest api req.headers .write (reloadConfig env api (collect req.body))
  else (some (problem .prxNoRoute 404 "no such admin endpoint"), api)

end

end Pulsate.Control
