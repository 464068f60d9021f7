import Pulsate.Control.Grpc
import Pulsate.Lib.Tail

/-!
# The control plane

Both surfaces serve one `AdminApi`, while every part of the process may append to the audit log and the event pump of the
gRPC surface puts what it finds there on the bus.
-/

namespace Pulsate.Control

open Conf (ConfigStore)
open Waf (AuditEntry)
open Lib (isNew)

/-! ## Calls -/

inductive Call
  | append (event : Str)
  | rest (req : Request)
  | grpc (metadata : Headers) (rpc : Rpc)
  deriving DecidableEq, Repr

/-- A `Vec` has at most `isize::MAX` bytes, of which an entry takes 80. -/
def maxEntries : Nat := (2 ^ 63 - 1) / 80

section

variable (mac digest : List UInt8 → List UInt8) (env : Str → Option Str) (indexHtml : Str)

/-- Past the largest log an append cannot allocate. -/
def AdminApi.append (api : AdminApi) (event : Str) : AdminApi :=
  if api.audit.length < maxEntries then { api with audit := Waf.append mac api.audit event } else api

def AdminApi.serve (api : AdminApi) : Call → AdminApi
  | .append event => api.append mac event
  | .rest req => (dispatch mac digest env indexHtml api req).2
  | .grpc metadata rpc => (rpc.call mac digest env api metadata).2

/-! ## Reloads -/

def isReload (req : Request) : Bool := req.method = "POST" ∧ req.path = "/v1/config/reload"

/-- The text that a call with the scope for it has the store reload. -/
def Call.text (api : AdminApi) : Call → Option Str
  | .append _ => none
  | .rest req =>
    if isReload req ∧ (authorize digest api req.headers .write).isOk then some (collect req.body) else none
  | .grpc metadata (.reloadConfig text) =>
    if ((intercept digest api metadata).bind (require · .write)).isOk then some text else none
  | .grpc _ _ => none

/-- The generation that a call publishes. -/
def Call.reloads (api : AdminApi) (call : Call) : Option Nat :=
  (call.text digest api).bind (fun text => (api.store.reload env text).1.toOption.map (·.generation))

/-- The call is no REST request that succeeds in reloading. -/
def Announces (api : AdminApi) (call : Call) : Prop := ∀ req, call = .rest req → call.reloads digest env api = none

/-- The generations that a run of calls publishes. -/
def reloaded : AdminApi → List Call → List Nat
  | _, [] => []
  | api, call :: calls =>
    (call.reloads digest env api).toList ++ reloaded (api.serve mac digest env indexHtml call) calls

end

def AdminEvent.isReloaded : AdminEvent → Bool
  | .configReloaded _ => true
  | _ => false

def AdminEvent.isAppended : AdminEvent → Bool
  | .auditAppended _ _ _ => true
  | _ => false

/-! ## The pump -/

inductive Lifecycle
  | running
  | draining
  | stopped
  deriving DecidableEq, Repr

/-- Its `Debug` form. -/
def Lifecycle.text : Lifecycle → Str
  | .running => "Running"
  | .draining => "Draining"
  | .stopped => "Stopped"

structure System where
  api : AdminApi
  lastSeq : Option UInt64
  /-- The entries as the latest poll copied them, and those the loop over them has not come to. -/
  polled : List AuditEntry
  pending : List AuditEntry
  running : Bool

/-- The pump begins by reading the watermark. -/
def System.start (api : AdminApi) : System := ⟨api, api.audit.getLast?.map (·.seq), [], [], true⟩

inductive Action
  | call (c : Call)
  | tick
  | next
  /-- The lifecycle changed, or nobody is left to change it. -/
  | changed (state : Lifecycle)
  | closed
  deriving DecidableEq, Repr

def appended (e : AuditEntry) : AdminEvent := .auditAppended e.seq e.event e.hash

/-- One step of anybody. The pump waits for a tick or a change only when its loop is done. -/
def System.step (mac digest : List UInt8 → List UInt8) (env : Str → Option Str) (indexHtml : Str) (s : System) :
    Action → System
  | .call c => { s with api := s.api.serve mac digest env indexHtml c }
  | .tick => if s.running ∧ s.pending = [] then { s with polled := s.api.audit, pending := s.api.audit } else s
  | .next =>
    match s.pending with
    | [] => s
    | entry :: rest =>
      if isNew AuditEntry.seq s.lastSeq entry then
        { s with api := s.api.publish (appended entry), lastSeq := some entry.seq, pending := rest }
      else { s with pending := rest }
  | .changed state =>
    if s.running ∧ s.pending = [] then
      { s with api := s.api.publish (.lifecycleChanged state.text), running := state = .running }
    else s
  | .closed => if s.running ∧ s.pending = [] then { s with running := false } else s

end Pulsate.Control
