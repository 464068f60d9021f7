import Pulsate.Lib.OrdMap
import Pulsate.Lib.Run
import Pulsate.Waf.Acl

/-!
# Rate limits (`pulsate-waf`)

A limiter counts the requests of a key within a window that begins with the first of them.
-/

namespace Pulsate.Waf

open Lib (OrdMap)

structure RateOutcome where
  allowed : Bool
  limit : Nat
  remaining : Nat
  resetSecs : Nat
  deriving DecidableEq, Repr

/-- For each key, when its window began and how many requests it has seen. -/
abbrev Buckets := OrdMap Str (Nat × Nat)

namespace RateLimiter

/-- The window in nanoseconds. -/
def window (limiter : RateLimiter) : Nat := limiter.windowSecs * 10 ^ 9

def check (limiter : RateLimiter) (now : Nat) (key : Str) (buckets : Buckets) : RateOutcome × Buckets :=
  let entry := (buckets.get? key).getD (now, 0)
  let entry := if limiter.window ≤ now - entry.1 then (now, 0) else entry
  let used := (entry.2 + 1) % 2 ^ 64
  (⟨used ≤ limiter.limit, limiter.limit, limiter.limit - used, (limiter.window - (now - entry.1)) / 10 ^ 9⟩,
    buckets.insert key (entry.1, used))

end RateLimiter

/-! ## Checks one after another -/

/-- What a limiter allows in any window, given in nanoseconds. -/
structure Quota where
  limit : Nat
  window : Nat
  deriving DecidableEq, Repr

def RateLimiter.quota (limiter : RateLimiter) : Quota := ⟨limiter.limit, limiter.window⟩

/-- A check and when it is made. -/
structure Check where
  now : Nat
  key : Str
  deriving DecidableEq, Repr

namespace Quota

variable (quota : Quota)

/-- The window that a check falls into, and how many checks it has had before. -/
def enter (now : Nat) (entry : Option (Nat × Nat)) : Nat × Nat :=
  let entry := entry.getD (now, 0)
  if quota.window ≤ now - entry.1 then (now, 0) else entry

/-- The count, in 64 bits, with the check. -/
def used (now : Nat) (entry : Option (Nat × Nat)) : Nat := ((quota.enter now entry).2 + 1) % 2 ^ 64

def allows (now : Nat) (entry : Option (Nat × Nat)) : Bool := quota.used now entry ≤ quota.limit

def count (buckets : Buckets) (c : Check) : Buckets :=
  buckets.insert c.key ((quota.enter c.now (buckets.get? c.key)).1, quota.used c.now (buckets.get? c.key))

/-- The buckets after the checks. -/
def after (cs : List Check) : Buckets := Lib.run quota.count ∅ cs

/-- The checks with what is decided on each. -/
def decidedFrom (buckets : Buckets) : List Check → List (Check × Bool)
  | [] => []
  | c :: cs => (c, quota.allows c.now (buckets.get? c.key)) :: decidedFrom (quota.count buckets c) cs

def decided (cs : List Check) : List (Check × Bool) := quota.decidedFrom ∅ cs

/-- `RateLimiter::check`, whatever the window is. -/
def check (now : Nat) (key : Str) (buckets : Buckets) : RateOutcome × Buckets :=
  let used := quota.used now (buckets.get? key)
  (⟨quota.allows now (buckets.get? key), quota.limit, quota.limit - used,
      (quota.window - (now - (quota.enter now (buckets.get? key)).1)) / 10 ^ 9⟩, quota.count buckets ⟨now, key⟩)

/-- How a limiter is to treat the checks of a key. -/
structure Limits (cs : List Check) (key : Str) : Prop where
  rate : ∀ t, (quota.decided cs).countP (fun d => d.1.key = key ∧ d.2 ∧ t ≤ d.1.now ∧ d.1.now < t + quota.window) ≤
    2 * quota.limit
  denied : ∀ pre d post, quota.decided cs = pre ++ d :: post → d.1.key = key → d.2 = false →
    quota.limit ≤ pre.countP (fun a => a.1.key = key ∧ a.2 ∧ d.1.now < a.1.now + quota.window)
  own : (quota.decided cs).filter (·.1.key = key) = quota.decided (cs.filter (·.key = key))

/-- No window can hold so many checks of the key that their count does not fit in 64 bits. -/
def Countable (cs : List Check) (key : Str) : Prop :=
  ∀ t, cs.countP (fun c => c.key = key ∧ t ≤ c.now ∧ c.now < t + quota.window) < 2 ^ 64

end Quota

end Pulsate.Waf
