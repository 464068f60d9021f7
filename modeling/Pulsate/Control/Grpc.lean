import Pulsate.Control.Serve

/-!
# The gRPC surface (`pulsate-control::grpc`)

An interceptor resolves the token before a call reaches the service, and every call then asks for its scope. The encoding
of messages on the wire is left out; a message's text is a string already.
-/

namespace Pulsate.Control

open Conf (compile CompileError)

/-! ## Messages -/

inductive GrpcCode
  | unauthenticated
  | permissionDenied
  deriving DecidableEq, Repr

structure Status where
  grpc : GrpcCode
  /-- The `pls-error-code` metadata entry. -/
  pls : Code
  message : Str
  deriving DecidableEq, Repr

def unauthenticated : Status := ⟨.unauthenticated, .admUnauthorized, "missing or unknown bearer token"⟩

def forbidden : Status := ⟨.permissionDenied, .admForbidden, "token lacks the required scope"⟩

structure Problem where
  code : Str
  line : UInt32
  col : UInt32
  message : Str
  deriving DecidableEq, Repr

def problemsOf (diags : List Flow.Diagnostic) : List Problem :=
  diags.map (fun d => ⟨configCode d.code, d.span.line, d.span.col, d.message⟩)

inductive Rpc
  | getInfo
  | getMetrics
  | listUpstreams
  | validateConfig (text : Str)
  | reloadConfig (text : Str)
  | getAuditLog
  | watchEvents
  deriving DecidableEq, Repr

inductive Reply
  | info (version : Str) (generation sites upstreams : Nat)
  | metrics (prometheus : Str)
  | upstreams (pools : List (Str × Nat))
  | validated (valid : Bool) (problems : List Problem)
  | reloaded (ok : Bool) (generation : Nat) (problems : List Problem)
  | auditLog (verified : Bool) (entries : List (UInt64 × Str × Str))
  /-- A stream of the events published from here on. -/
  | watching
  deriving DecidableEq, Repr

/-! ## Calls -/

section

variable (mac digest : List UInt8 → List UInt8) (env : Str → Option Str)

/-- `AuthInterceptor`. -/
def intercept (api : AdminApi) (metadata : Headers) : Except Status Scopes :=
  match (bearer metadata).bind (api.scopesFor digest) with
  | none => .error unauthenticated
  | some scopes => .ok scopes

def require (scopes : Scopes) (scope : Scope) : Except Status Unit :=
  if scopes.satisfies scope then .ok () else .error forbidden

def Rpc.scope : Rpc → Scope
  | .getInfo => .read
  | .getMetrics => .read
  | .listUpstreams => .read
  | .validateConfig _ => .write
  | .reloadConfig _ => .write
  | .getAuditLog => .admin
  | .watchEvents => .admin

/-- The body of a call, after its scope is checked. Nothing is returned where it panics. -/
def Rpc.serve (api : AdminApi) : Rpc → Option Reply × AdminApi
  | .getInfo =>
    (some (.info version api.store.current.generation api.gateway.router.sites.length
      api.gateway.upstreams.entries.length), api)
  | .getMetrics => (some (.metrics api.metrics), api)
  | .listUpstreams => (some (.upstreams (summary api)), api)
  | .validateConfig text =>
    match compile env text 0 with
    | .ok compiled => (some (.validated true (problemsOf compiled.warnings)), api)
    | .error (.diags diags) => (some (.validated false (problemsOf diags)), api)
    | .error _ => (none, api)
  | .reloadConfig text =>
    let (result, store) := api.store.reload env text
    let api := { api with store }
    match result with
    | .ok generation =>
      (some (.reloaded true generation.generation []), api.publish (.configReloaded generation.generation))
    | .error (.diags diags) => (some (.reloaded false 0 (problemsOf diags)), api)
    | .error _ => (none, api)
  | .getAuditLog =>
    (some (.auditLog (Waf.verify mac api.audit) (api.audit.map (fun e => (e.seq, e.event, e.hash)))), api)
  | .watchEvents => (some .watching, api)

def Rpc.call (api : AdminApi) (metadata : Headers) (rpc : Rpc) : Except Status (Option Reply) × AdminApi :=
  match (intercept digest api metadata).bind (fun scopes => require scopes rpc.scope) with
  | .error status => (.error status, api)
  | .ok _ =>
    let (reply, api) := rpc.serve mac env api
    (.ok reply, api)

end

end Pulsate.Control
