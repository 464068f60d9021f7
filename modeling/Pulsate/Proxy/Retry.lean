import Pulsate.Proxy.Forward

/-!
# What retries should do

How many requests a call sends, where they go and which of them may be repeated, said by the outcomes and the state of the pool
before each try.
-/

namespace Pulsate.Proxy

open Lib (run)

/-! ## Outcomes -/

namespace RetryPolicy

variable (retry : RetryPolicy)

/-- The status is listed, or the error may be retried. -/
def retries : Outcome → Bool
  | .answered answer => answer.status ∈ retry.retryOnStatus
  | .failed _ => retry.onConnectError

/-- The target has failed. -/
def fails : Outcome → Bool
  | .answered answer => answer.status ∈ retry.retryOnStatus
  | .failed _ => true

/-- So many requests are due: up to the first outcome that is not retried, and no more than one and the additional ones. -/
def Due (outcome : Nat → Outcome) (n : Nat) : Prop :=
  ∃ m ≤ retry.attempts, n = m + 1 ∧ (∀ j < m, retry.retries (outcome j)) ∧
    (m = retry.attempts ∨ retry.retries (outcome m) = false)

end RetryPolicy

/-- What is passed on when an outcome is not retried. -/
def Outcome.reply : Outcome → Http.Response
  | .answered answer => normalizeResponse answer
  | .failed _ => errorResponse .connectTimeout

/-- The record that is due for a request. -/
def Sent.record (retry : RetryPolicy) (sent : Sent) : Record := ⟨sent.target, sent.now, retry.fails sent.outcome⟩

/-! ## Calls -/

namespace Upstream

variable (up : Upstream) (wire : Wire) (req : Forwarding) (health : Health)

/-- The state of the pool before a try, if the call gets there. -/
def before (k : Nat) : Option Health := Lib.before (up.attempt wire req) 0 k health

/-- Some target is in rotation whenever a request is due. -/
def StaysEligible : Prop :=
  ∀ k ≤ up.retry.attempts, ∀ h, up.before wire req health k = some h → up.eligible (wire.pickAt k) h ≠ []

/-- The addresses that requests within the budget go to are URIs. -/
def Addressable : Prop :=
  ∀ k < max up.retry.attempts 1, ∀ h i base, up.before wire req health k = some h →
    (up.pick wire.hash req.clientIp (wire.pickAt k) h).1 = some i → up.targetUrl i = some base →
    wire.parses (base ++ req.pathAndQuery)

/-- The call keeps to its budget: it sends the requests that are due, records each of them once, and passes on the answer that
is not to be retried. -/
structure KeepsBudget : Prop where
  due : up.retry.Due wire.outcome (up.forward wire req health).sent.length
  recorded : (up.forward wire req health).state.targets =
    (run up.record health ((up.forward wire req health).sent.map (Sent.record up.retry))).targets
  passed : ∀ sent ∈ (up.forward wire req health).sent, ∀ answer, sent.outcome = .answered answer →
    answer.status ∉ up.retry.retryOnStatus → (up.forward wire req health).result.status = answer.status

/-- After a failed try at target `i` another request is sent, while another target is in rotation as well. -/
structure RetriedFrom (k i : Nat) (h : Health) : Prop where
  failed : ∃ sent, (up.forward wire req health).sent[k]? = some sent ∧ sent.target = i
  again : k + 1 < (up.forward wire req health).sent.length
  state : up.before wire req health (k + 1) = some h
  other : ∃ j ∈ up.eligible (wire.pickAt (k + 1)) h, j ≠ i

/-- The policy does not come to the target, of those in rotation. -/
def PassesOver (hash : UInt64) (eligible : List Nat) (h : Health) (i : Nat) : Prop :=
  match up.policy with
  | .roundRobin => h.rr.toNat % eligible.length ≠ eligible.idxOf i
  | .leastConn => ∃ j ∈ eligible, (h.targets j).inflight < (h.targets i).inflight ∨
      (h.targets j).inflight = (h.targets i).inflight ∧ j < i
  | .random => (h.rr * 2654435761).toNat % eligible.length ≠ eligible.idxOf i
  | .ipHash => hash.toNat % eligible.length ≠ eligible.idxOf i

/-- No two requests of the call may have brought anything to a target, and a second one is sent only where the one before it
never got a connection. -/
structure SentOnce : Prop where
  once : ∀ (j k : Nat) (s t : Sent), (up.forward wire req health).sent[j]? = some s → (up.forward wire req health).sent[k]? = some t →
    s.outcome ≠ .failed false → t.outcome ≠ .failed false → j = k
  unconnected : ∀ k (s : Sent), (up.forward wire req health).sent[k]? = some s → k + 1 < (up.forward wire req health).sent.length →
    s.outcome = .failed false

/-- The answer to a try ends the call: the call gets there and sends a request, and the status is not one to retry. -/
structure Ends (k : Nat) (answer : Answer) : Prop where
  within : k < max up.retry.attempts 1
  sends : ∃ h i request, up.before wire req health k = some h ∧ (up.choose wire req k h).1 = .ok (i, request)
  answered : wire.outcome k = .answered answer
  final : answer.status ∉ up.retry.retryOnStatus

end Upstream

/-- The body of the answer breaks off. -/
def Outcome.broken : Outcome → Bool
  | .answered answer => !answer.clean
  | .failed _ => false

/-- The record that is due for a request if a body that breaks off is a failure. -/
def Sent.wholeRecord (retry : RetryPolicy) (sent : Sent) : Record :=
  ⟨sent.target, sent.now, retry.fails sent.outcome || sent.outcome.broken⟩

end Pulsate.Proxy
