import Pulsate.Config.Build
import Pulsate.Config.Store
import Pulsate.Lib.Run

/-!
# A running gateway (`pulsate-cli::up`)

`up` compiles the start text into the store and builds the gateway's tables from it. From then on the
admin API swaps the store's generation, while every connection is served from the gateway.
-/

namespace Pulsate.Cli

open Conf

/-! ## Serving -/

structure Gateway where
  router : Routing.Router
  upstreams : Proxy.Registry
  deriving DecidableEq

structure Request where
  host : Str
  path : Str
  method : Str
  deriving DecidableEq, Repr

/-- The pool a handler forwards to. -/
def Gateway.pool (g : Gateway) : Handler → Option Proxy.Upstream
  | .proxy (some name) _ => g.upstreams.get? name
  | .proxy none (some url) =>
    some (Proxy.Upstream.new "_direct" [(url, 1)] .roundRobin .default .default)
  | _ => none

/-- The route a request takes and the pool it is forwarded to. -/
def Gateway.serve (g : Gateway) (r : Request) : Option (Routing.Route × Option Proxy.Upstream) :=
  (g.router.route r.host r.path r.method).map (fun route => (route, g.pool route.handler))

/-- The tables built from a configuration. -/
def gatewayOf (config : Config) : Gateway := ⟨buildRouter config, buildUpstreams config⟩

/-! ## The process -/

structure Server where
  store : ConfigStore
  gateway : Gateway
  deriving DecidableEq

inductive Step
  | request (r : Request)
  | reload (text : Str)
  deriving DecidableEq, Repr

variable (env : Str → Option Str)

def up (text : Str) : Except CompileError Server :=
  (ConfigStore.load env text).map (fun store => ⟨store, gatewayOf store.current.config⟩)

/-- A reload goes to the store only; a request changes nothing. -/
def Server.step (s : Server) : Step → Server
  | .request _ => s
  | .reload text => { s with store := (s.store.reload env text).2 }

/-- The configuration a text compiles to. -/
def configOf (text : Str) : Option Config := (compile env text 0).toOption.map (·.config)

/-- The last text, of the start text and the reloaded ones, that compiles. -/
def lastAccepted (text : Str) (steps : List Step) : Str :=
  steps.foldl (fun last s =>
    match s with
    | .reload t => if (configOf env t).isSome then t else last
    | .request _ => last) text

end Pulsate.Cli
