import Pulsate.Lib.OrdMap
import Pulsate.Std.Str
import Pulsate.Std.Time

/-!
# Upstream pools (`pulsate-proxy`)

The pools as built; the health state of a fresh pool is empty.
-/

namespace Pulsate.Proxy

inductive Policy
  | roundRobin
  | leastConn
  | random
  | ipHash
  deriving DecidableEq, Repr

def Policy.parse (s : Str) : Policy :=
  if s = "least_conn" then .leastConn
  else if s = "random" then .random
  else if s = "ip_hash" then .ipHash
  else .roundRobin

structure RetryPolicy where
  attempts : Nat
  retryOnStatus : List Nat
  onConnectError : Bool
  deriving DecidableEq, Repr

def RetryPolicy.default : RetryPolicy := ⟨1, [502, 503, 504], true⟩

structure BreakerPolicy where
  consecutiveFailures : Nat
  openFor : Duration
  deriving DecidableEq, Repr

def BreakerPolicy.default : BreakerPolicy := ⟨5, .fromSecs 15⟩

structure Backend where
  url : Str
  weight : Nat
  deriving DecidableEq, Repr

structure Upstream where
  name : Str
  backends : List Backend
  policy : Policy
  retry : RetryPolicy
  breaker : BreakerPolicy
  deriving DecidableEq, Repr

def Upstream.new (name : Str) (targets : List (Str × Nat)) (policy : Policy) (retry : RetryPolicy)
    (breaker : BreakerPolicy) : Upstream :=
  ⟨name, targets.map (fun t => ⟨t.1.trimEndMatches '/', max t.2 1⟩), policy, retry, breaker⟩

abbrev Registry := Lib.OrdMap Str Upstream

def Registry.add (r : Registry) (u : Upstream) : Registry := r.insert u.name u

end Pulsate.Proxy
