import Mathlib.Data.List.MinMax
import Pulsate.Lib.Run
import Pulsate.Proxy.Registry
import Pulsate.Std.Net

/-!
# The health of a pool (`pulsate-proxy`)

What the atomics and mutexes of an upstream hold, and how a target is chosen by it. A target is known by its number.
-/

namespace Pulsate.Proxy

structure TargetState where
  inflight : Nat
  consecutiveFailures : Nat
  ejectedUntil : Option Nat
  deriving DecidableEq, Repr

def TargetState.default : TargetState := ⟨0, 0, none⟩

/-- The states of the targets, and the counter that the rotation goes by. -/
structure Health where
  targets : Nat → TargetState
  rr : UInt64

namespace Health

def new : Health := ⟨fun _ => .default, 0⟩

/-- Whether a target is ejected at this time. -/
def isEjected (health : Health) (i now : Nat) : Bool := (health.targets i).ejectedUntil.any (now < ·)

def set (health : Health) (i : Nat) (target : TargetState) : Health :=
  { health with targets := Function.update health.targets i target }

end Health

namespace Upstream

variable (up : Upstream)

def targetUrl (i : Nat) : Option Str := up.backends[i]?.map (·.url)

/-! ## Choosing a target -/

/-- The targets that are not ejected, each looked at in its own time. -/
def eligible (now : Nat → Nat) (health : Health) : List Nat :=
  (List.range up.backends.length).filter (fun i => !health.isEjected i (now i))

/-- `pick`, where `hash` is the hash of a client's address. -/
def pick (hash : Option IpAddr → UInt64) (clientIp : Option IpAddr) (now : Nat → Nat) (health : Health) :
    Option Nat × Health :=
  let eligible := up.eligible now health
  if eligible = [] then (none, health)
  else
    match up.policy with
    | .roundRobin => (eligible[health.rr.toNat % eligible.length]?, { health with rr := health.rr + 1 })
    | .leastConn => (eligible.argmin (fun i => (health.targets i).inflight), health)
    | .random =>
      (eligible[(health.rr * 2654435761).toNat % eligible.length]?, { health with rr := health.rr + 1 })
    | .ipHash => (eligible[(hash clientIp).toNat % eligible.length]?, health)

/-! ## Records -/

/-- The state of a target is changed, if there is such a target. -/
def change (f : TargetState → TargetState) (i : Nat) (health : Health) : Health :=
  if i < up.backends.length then health.set i (f (health.targets i)) else health

def recordSuccess (i : Nat) (health : Health) : Health :=
  up.change (fun t => { t with consecutiveFailures := 0, ejectedUntil := none }) i health

/-- The streak grows by one, or ends with the target being ejected. -/
def recordFailure (now i : Nat) (health : Health) : Health :=
  up.change (fun t =>
    if up.breaker.consecutiveFailures ≤ t.consecutiveFailures + 1 then
      { t with consecutiveFailures := 0, ejectedUntil := some (now + up.breaker.openFor.nanos) }
    else { t with consecutiveFailures := t.consecutiveFailures + 1 }) i health

def inflightInc (i : Nat) (health : Health) : Health := up.change (fun t => { t with inflight := t.inflight + 1 }) i health

/-- Each call follows one of `inflightInc`, so the counter is not at zero. -/
def inflightDec (i : Nat) (health : Health) : Health := up.change (fun t => { t with inflight := t.inflight - 1 }) i health

end Upstream

/-! ## What a breaker should do

A target is out for a while after every so many failures in a row. Here that is said by the history of the records alone. -/

/-- A record of how a request to a target went, and when it is made. -/
structure Record where
  target : Nat
  now : Nat
  failed : Bool
  deriving DecidableEq, Repr

def Upstream.record (up : Upstream) (health : Health) (r : Record) : Health :=
  if r.failed then up.recordFailure r.now r.target health else up.recordSuccess r.target health

/-- The records of one target. -/
def recordsOf (i : Nat) (records : List Record) : List Record := records.filter (·.target = i)

/-- How many times in a row a target has failed at the end. -/
def streak (i : Nat) (records : List Record) : Nat := ((recordsOf i records).reverse.takeWhile (·.failed)).length

/-- After how many failures a target is ejected. -/
def Upstream.threshold (up : Upstream) : Nat := max 1 up.breaker.consecutiveFailures

/-- The record is a failure of the target, and its place in the streak is a multiple of the threshold. -/
def Trips (up : Upstream) (i : Nat) (pre : List Record) (r : Record) : Prop :=
  r.target = i ∧ r.failed ∧ up.threshold ∣ streak i pre + 1

/-! ## What a choice should be -/

/-- What is done with a pool, in the order in which it takes effect. -/
inductive Act
  | pick (clientIp : Option IpAddr) (now : Nat → Nat)
  | record (r : Record)
  | inflightInc (i : Nat)
  | inflightDec (i : Nat)

namespace Upstream

variable (up : Upstream) (hash : Option IpAddr → UInt64)

def act (health : Health) : Act → Health
  | .pick clientIp now => (up.pick hash clientIp now health).2
  | .record r => up.record health r
  | .inflightInc i => up.inflightInc i health
  | .inflightDec i => up.inflightDec i health

/-- The targets that are picked, one after another. -/
def picks (health : Health) : List Act → List (Option Nat)
  | [] => []
  | .pick clientIp now :: acts => (up.pick hash clientIp now health).1 :: picks (up.pick hash clientIp now health).2 acts
  | a :: acts => picks (up.act hash health a) acts

/-- A pick finds these targets eligible. -/
def Sees (targets : List Nat) (health : Health) : Act → Prop
  | .pick _ now => up.eligible now health = targets
  | _ => True

/-- How targets are to be chosen. -/
structure Selects : Prop where
  none_iff : ∀ clientIp now health, (up.pick hash clientIp now health).1 = none ↔
    ∀ i < up.backends.length, health.isEjected i (now i)
  healthy : ∀ clientIp now health i, (up.pick hash clientIp now health).1 = some i →
    i < up.backends.length ∧ health.isEjected i (now i) = false
  leastConn : up.policy = .leastConn → ∀ clientIp now health i, (up.pick hash clientIp now health).1 = some i →
    ∀ j < up.backends.length, health.isEjected j (now j) = false → (health.targets i).inflight ≤ (health.targets j).inflight
  ipHash : up.policy = .ipHash → ∀ clientIp now health now' health', up.eligible now health = up.eligible now' health' →
    (up.pick hash clientIp now health).1 = (up.pick hash clientIp now' health').1
  roundRobin : up.policy = .roundRobin → ∀ health acts targets, Lib.Permits (up.Sees targets) (up.act hash) health acts →
    (up.picks hash health acts).length = targets.length → health.rr.toNat + targets.length ≤ 2 ^ 64 →
    targets.Nodup ∧ (up.picks hash health acts).Perm (targets.map some)

end Upstream

end Pulsate.Proxy
