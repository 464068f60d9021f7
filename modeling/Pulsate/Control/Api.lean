import Pulsate.Cli.Up
import Pulsate.Control.Json

/-!
# The admin API (`pulsate-control`)

The state that both admin surfaces share. The token table is searched by digest; the digest is `ring`'s SHA-256 and
enters as a function of the token's bytes.
-/

namespace Pulsate.Control

open Conf (ConfigStore)

/-! ## Events and scopes -/

inductive AdminEvent
  | configReloaded (generation : Nat)
  | lifecycleChanged (state : Str)
  | auditAppended (seq : UInt64) (event hash : Str)
  deriving DecidableEq, Repr

structure Scopes where
  read : Bool
  write : Bool
  admin : Bool
  deriving DecidableEq, Repr

def Scopes.all : Scopes := ⟨true, true, true⟩

inductive Scope
  | read
  | write
  | admin
  deriving DecidableEq, Repr

def Scopes.satisfies (scopes : Scopes) : Scope → Bool
  | .read => scopes.read
  | .write => scopes.write
  | .admin => scopes.admin

/-! ## State -/

/-- The bus is the list of all events that were ever published on it, whoever was listening. -/
structure AdminApi where
  store : ConfigStore
  gateway : Cli.Gateway
  /-- What the gateway's telemetry renders. -/
  metrics : Str
  audit : List Waf.AuditEntry
  tokens : Lib.OrdMap Str Scopes
  events : List AdminEvent

namespace AdminApi

def new (store : ConfigStore) (gateway : Cli.Gateway) (metrics : Str) (audit : List Waf.AuditEntry) (adminToken : Str) :
    AdminApi :=
  ⟨store, gateway, metrics, audit, (∅ : Lib.OrdMap Str Scopes).insert adminToken .all, []⟩

def addToken (api : AdminApi) (token : Str) (scopes : Scopes) : AdminApi :=
  { api with tokens := api.tokens.insert token scopes }

/-- Every token is compared, so the last one with the digest is found. -/
def scopesFor (digest : List UInt8 → List UInt8) (api : AdminApi) (token : Str) : Option Scopes :=
  api.tokens.entries.foldl (fun found known =>
    if digest token.bytes = digest (Str.bytes known.1) then some known.2 else found) none

def publish (api : AdminApi) (event : AdminEvent) : AdminApi := { api with events := api.events ++ [event] }

end AdminApi

/-! ## Bearer tokens -/

/-- `HeaderValue::to_str`: visible ASCII, blanks and tabs. -/
def headerStr (value : List UInt8) : Option Str :=
  if value.all (fun b => b = 9 || (32 ≤ b && b < 127)) then some (value.map Char.ofUInt8) else none

/-- Header names and values, the names in lower case. -/
abbrev Headers := List (Str × List UInt8)

/-- The token of an `Authorization` header, as both surfaces read it. -/
def bearer (headers : Headers) : Option Str :=
  (((headers.lookup "authorization".toList).bind headerStr).bind (·.stripPrefix "Bearer ")).map Str.trim

end Pulsate.Control
