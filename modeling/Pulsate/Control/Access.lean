import Pulsate.Control.Grpc

/-!
# Who may do what

The operations that both surfaces offer, what each of them asks for, and to whom that has been given.
-/

namespace Pulsate.Control

inductive Operation
  | info
  | metrics
  | upstreams
  | audit
  | validate
  | reload
  deriving DecidableEq, Repr

namespace Operation

/-- Runtime state is read and a configuration written, while the audit log is for administrators. -/
def scope : Operation → Scope
  | .info => .read
  | .metrics => .read
  | .upstreams => .read
  | .audit => .admin
  | .validate => .write
  | .reload => .write

def method : Operation → Str
  | .validate => "POST"
  | .reload => "POST"
  | _ => "GET"

def path : Operation → Str
  | .info => "/v1/info"
  | .metrics => "/v1/metrics"
  | .upstreams => "/v1/upstreams"
  | .audit => "/v1/audit"
  | .validate => "/v1/config/validate"
  | .reload => "/v1/config/reload"

def request (op : Operation) (headers : Headers) (body : Body) : Request := ⟨op.method, op.path, headers, body⟩

def rpc (op : Operation) (text : Str) : Rpc :=
  match op with
  | .info => .getInfo
  | .metrics => .getMetrics
  | .upstreams => .listUpstreams
  | .audit => .getAuditLog
  | .validate => .validateConfig text
  | .reload => .reloadConfig text

/-- What the REST surface does for a request that it lets through. -/
def endpoint (mac : List UInt8 → List UInt8) (env : Str → Option Str) (api : AdminApi) (body : Body) (op : Operation) :
    Option Response × AdminApi :=
  match op with
  | .info => (some (Control.info api), api)
  | .metrics => (some ⟨200, "text/plain; version=0.0.4; charset=utf-8", api.metrics⟩, api)
  | .upstreams => (some (Control.upstreams api), api)
  | .audit => (some (Control.audit mac api), api)
  | .validate => (validateConfig env (collect body), api)
  | .reload => reloadConfig env api (collect body)

end Operation

def Request.Asks (req : Request) (op : Operation) : Prop := req.method = op.method ∧ req.path = op.path

/-! ## Tokens -/

/-- The tokens are added one after another. -/
def AdminApi.addTokens (api : AdminApi) (added : List (Str × Scopes)) : AdminApi :=
  added.foldl (fun api token => api.addToken token.1 token.2) api

/-- What was given to a token last. -/
def granted (adminToken : Str) (added : List (Str × Scopes)) (token : Str) : Option Scopes :=
  ((adminToken, Scopes.all) :: added).reverse.lookup token

/-- The `Authorization` header is `Bearer ` and a token, with blanks around it or not, that was given the scope. -/
def Authorized (adminToken : Str) (added : List (Str × Scopes)) (headers : Headers) (scope : Scope) : Prop :=
  ∃ value raw scopes, headers.lookup "authorization".toList = some value ∧ headerStr value = some ("Bearer ".toList ++ raw) ∧
    granted adminToken added (Str.trim raw) = some scopes ∧ scopes.satisfies scope

end Pulsate.Control
