import Pulsate.Cache.Layer
import Pulsate.Lib.Slot

/-!
# A cache as a timed map

What a lookup should find is said here by the history of the calls alone: the response stored last under the key, unless a call
since then has taken it out.
-/

namespace Pulsate.Cache

open Http (HeaderMap)
open Lib (Iteration Permits run)

/-- The call goes past the tests of the response, into the store. -/
structure Admitted (config : CacheConfig) (status : Nat) (headers : HeaderMap) (body : List UInt8) (store : MemoryStore)
    (ttl : Duration) : Prop where
  cacheable : config.cacheableTtl status headers = some ttl
  small : body.length ≤ config.maxBodyBytes
  healthy : store.poisoned = false

/-- Room for a body under `key` is made by taking `other` out. -/
def Evicts (config : CacheConfig) (order : Iteration Str Entry) (key : Str) (size : Nat) (inner : Inner) (other : Str) : Prop :=
  (inner.remove key).2.len < config.maxEntries ∧
    ((inner.remove key).2.evictUntilFits order size config.maxTotalBytes).map.get? other = none

/-- The call takes the entry out that is stored under the key: it stores another one there or is refused after it has removed
the one that was there, it evicts it, finds it expired, or purges or clears it. -/
def Removes (key : Str) (entry : Entry) (store : MemoryStore) (c : Timed) : Prop :=
  match c.call with
  | .maybeStore config order k status headers body =>
    (∃ ttl, Admitted config status headers body store ttl) ∧
      (k = key ∨ Evicts config order k body.length store.inner key)
  | .lookup k => k = key ∧ entry.ttl.nanos + entry.swr.nanos < c.now - entry.storedAt
  | .purgeTag tag => tag ∈ entry.tags
  | .clear => True

/-- The entry that a response becomes. -/
def entryOf (config : CacheConfig) (now status : Nat) (headers : HeaderMap) (body : List UInt8) (ttl : Duration) : Entry :=
  ⟨status, keptHeaders headers, body, now, ttl, config.staleWhileRevalidate, parseTags headers⟩

/-- The entry that a call stores under the key. -/
def storedBy (key : Str) (store : MemoryStore) (c : Timed) : Option Entry :=
  match c.call with
  | .maybeStore config order k status headers body =>
    if k = key ∧ (maybeStore config c.now order k status headers body store).1 then
      (config.cacheableTtl status headers).map (entryOf config c.now status headers body)
    else none
  | _ => none

/-- The lookup panics while it holds the mutex. -/
def Poisons (store : MemoryStore) (c : Timed) : Prop :=
  match c.call with
  | .lookup key => store.poisoned = false ∧ ∃ entry, store.inner.map.get? key = some entry ∧
      entry.ttl.nanos < c.now - entry.storedAt ∧ 2 ^ 64 * 10 ^ 9 ≤ entry.ttl.nanos + entry.swr.nanos
  | _ => False

/-- What a lookup sees of the entries. -/
def MemoryStore.visible (store : MemoryStore) (key : Str) : Option Entry :=
  if store.poisoned then none else store.inner.map.get? key

/-- The entry was stored under the key by the call after `pre`, and nothing has taken it out since. -/
abbrev StoredBy (key : Str) (entry : Entry) (pre : List Timed) (c : Timed) (post : List Timed) : Prop :=
  Lib.PutBy MemoryStore.step (storedBy key) (fun store c e => Removes key e store c ∨ Poisons store c) .new entry pre c post

/-- The lifetimes a call gives its entry do not overflow. -/
def NoOverflow (c : Timed) : Prop :=
  match c.call with
  | .maybeStore config _ _ status headers _ => ∀ ttl, config.cacheableTtl status headers = some ttl →
      ttl.nanos + config.staleWhileRevalidate.nanos < 2 ^ 64 * 10 ^ 9
  | _ => True

/-! ## Answers -/

/-- The entry is young enough to be served. -/
def Servable (now : Nat) (entry : Entry) : Prop :=
  now - entry.storedAt ≤ entry.ttl.nanos ∨ entry.ttl.nanos + entry.swr.nanos < 2 ^ 64 * 10 ^ 9 ∧
    now - entry.storedAt ≤ entry.ttl.nanos + entry.swr.nanos

instance decidableServable (now : Nat) (entry : Entry) : Decidable (Servable now entry) :=
  inferInstanceAs (Decidable (_ ∨ _))

/-- The answer that a lookup gives from an entry. -/
def hitOf (now : Nat) (entry : Entry) : Hit :=
  ⟨entry.status, entry.headers, entry.body, Duration.asSecs (now - entry.storedAt),
    if now - entry.storedAt ≤ entry.ttl.nanos then .fresh else .stale⟩

end Pulsate.Cache
