import Pulsate.Std.Str

/-!
# The custom resources (`pulsate-k8s::crd`)

The fields the translation can read. Listener ports and the status objects do not reach it.
-/

namespace Pulsate.K8s

/-- `ObjectMeta`. -/
structure Metadata where
  name : Option Str
  ns : Option Str
  deriving DecidableEq, Repr

structure GatewayClass where
  metadata : Metadata
  controllerName : Str
  deriving DecidableEq, Repr

structure Listener where
  name : Str
  hostname : Option Str
  protocol : Str
  deriving DecidableEq, Repr

structure Gateway where
  metadata : Metadata
  gatewayClassName : Str
  listeners : List Listener
  deriving DecidableEq, Repr

structure ParentRef where
  name : Str
  ns : Option Str
  sectionName : Option Str
  deriving DecidableEq, Repr

structure HTTPPathMatch where
  matchType : Str
  value : Str
  deriving DecidableEq, Repr

structure HTTPRouteMatch where
  path : Option HTTPPathMatch
  method : Option Str
  deriving DecidableEq, Repr

structure HTTPBackendRef where
  name : Str
  ns : Option Str
  port : Option UInt16
  weight : Option UInt32
  deriving DecidableEq, Repr

structure HTTPRouteRule where
  matches_ : List HTTPRouteMatch
  backendRefs : List HTTPBackendRef
  deriving DecidableEq, Repr

structure HTTPRoute where
  metadata : Metadata
  parentRefs : List ParentRef
  hostnames : List Str
  rules : List HTTPRouteRule
  deriving DecidableEq, Repr

end Pulsate.K8s
