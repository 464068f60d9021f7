import Pulsate.Proxy.Retry

/-!
# Calls side by side

Many calls forward requests to one pool. A call works on until it waits, for the end of its request or for the body of an answer,
and where it waits it may be dropped. Of the pool only the counters of what is in flight are followed. What a call sees of the
rest, and of the counters while others change them, is left open.
-/

namespace Pulsate.Proxy

/-- Where a call stands, with the number of its try and how many are left after that. -/
inductive Phase
  | ready (left k : Nat)
  | waiting (left k i : Nat)
  | reading (answer : Answer)
  | ended
  deriving DecidableEq, Repr

namespace Phase

def isLive : Phase → Bool
  | ended => false
  | _ => true

/-- The call has a request to the target outstanding: it has been counted, and the count has not been taken back. -/
def awaits (i : Nat) : Phase → Bool
  | waiting _ _ j => j = i
  | _ => false

end Phase

/-- The counters of the targets, and the calls by their numbers. -/
structure Pool where
  inflight : Nat → Nat
  calls : List Phase

inductive Event
  | call
  | send (c : Nat) (seen : Health)
  | finish (c : Nat)
  | read (c : Nat)
  | drop (c : Nat)

namespace Pool

def new : Pool := ⟨fun _ => 0, []⟩

def move (pool : Pool) (c : Nat) (phase : Phase) : Pool := { pool with calls := pool.calls.set c phase }

def count (pool : Pool) (i n : Nat) : Pool := { pool with inflight := Function.update pool.inflight i n }

/-- How many calls have a request to the target outstanding. -/
def outstanding (pool : Pool) (i : Nat) : Nat := pool.calls.countP (Phase.awaits i)

/-- The counters are what they stand for. -/
structure Exact (pool : Pool) : Prop where
  counts : ∀ i, pool.inflight i = pool.outstanding i
  rests : (∀ phase ∈ pool.calls, phase.isLive = false) → ∀ i, pool.inflight i = 0

end Pool

section Step

variable (up : Upstream) (wires : Nat → Wire) (reqs : Nat → Forwarding)

/-- Where a call goes on when its request has ended. -/
def Upstream.phaseAfter (left k : Nat) (outcome : Outcome) : Phase :=
  if up.retry.retries outcome then
    match left with
    | 0 => .ended
    | left + 1 => .ready left (k + 1)
  else
    match outcome with
    | .answered answer => .reading answer
    | .failed _ => .ended

/-- The next piece of work of a call; what it cannot do where it stands changes nothing. -/
def Pool.step (pool : Pool) : Event → Pool
  | .call => { pool with calls := pool.calls ++ [.ready (max up.retry.attempts 1 - 1) 0] }
  | .send c seen =>
    match pool.calls[c]? with
    | some (.ready left k) =>
      match (up.choose (wires c) (reqs c) k seen).1 with
      | .error _ => pool.move c .ended
      | .ok (i, _) => (pool.move c (.waiting left k i)).count i (pool.inflight i + 1)
    | _ => pool
  | .finish c =>
    match pool.calls[c]? with
    | some (.waiting left k i) =>
      (pool.move c (up.phaseAfter left k ((wires c).outcome k))).count i (pool.inflight i - 1)
    | _ => pool
  | .read c =>
    match pool.calls[c]? with
    | some (.reading _) => pool.move c .ended
    | _ => pool
  | .drop c =>
    match pool.calls[c]? with
    | some (.waiting _ _ _) => pool.move c .ended
    | some (.reading _) => pool.move c .ended
    | _ => pool

end Step

/-- The event drops a call that has a request outstanding. -/
def Pool.Loses (pool : Pool) (e : Event) : Prop := ∃ c left k i, e = .drop c ∧ pool.calls[c]? = some (.waiting left k i)

/-- What the tries of a call come to as events, if nothing else happens meanwhile. -/
def Upstream.tour (up : Upstream) (wire : Wire) (req : Forwarding) (c : Nat) : (left k : Nat) → Health → List Event
  | 0, _, _ => []
  | left + 1, k, health =>
    match up.attempt wire req k health with
    | .refused _ _ => [.send c health]
    | .final _ _ _ => [.send c health, .finish c]
    | .again _ health' => .send c health :: .finish c :: up.tour wire req c left (k + 1) health'

end Pulsate.Proxy
