import Pulsate.Cache.Store
import Pulsate.Http.Headers

/-!
# Cache layers (`pulsate-cache`)

What a layer stores, under which key, for how long, and what it answers.
-/

namespace Pulsate.Cache

open Http (HeaderMap HeaderName HeaderValue)
open Lib (OrdMap Iteration)

structure CacheConfig where
  defaultTtl : Duration
  methods : List Str
  vary : List Str
  staleWhileRevalidate : Duration
  maxEntries : Nat
  maxBodyBytes : Nat
  maxTotalBytes : Nat
  deriving DecidableEq, Repr

inductive Freshness
  | fresh
  | stale
  deriving DecidableEq, Repr

structure Hit where
  status : Nat
  headers : List (Str × Str)
  body : List UInt8
  ageSecs : Nat
  freshness : Freshness
  deriving DecidableEq, Repr

/-! ## Headers -/

/-- One item of a `Cache-Control` line: its name in lower case and its value. -/
def directive (part : Str) : Str × Str :=
  let (k, val) := (Str.splitOnce part "=").getD (part, [])
  (Str.toAsciiLowercase (Str.trim k), Str.trimMatches (Str.trim val) '"')

/-- The directives of the first `Cache-Control` line; a later one takes the place of an earlier one of its name. -/
def cacheControl (headers : HeaderMap) : OrdMap Str Str :=
  match headers.getStr .cacheControl with
  | none => ∅
  | some v => OrdMap.insertAll ∅ ((((v.splitOn ',').map Str.trim).filter (· ≠ [])).map directive)

def cacheTag : HeaderName := ⟨"cache-tag", by decide⟩

def xCacheTag : HeaderName := ⟨"x-cache-tag", by decide⟩

def parseTags (headers : HeaderMap) : List Str :=
  match ((headers.get cacheTag).or (headers.get xCacheTag)).bind HeaderValue.toStr with
  | none => []
  | some v => ((v.splitOn ',').map Str.trim).filter (· ≠ [])

/-- The headers an entry keeps: those whose values are strings. -/
def keptHeaders (headers : HeaderMap) : List (Str × Str) :=
  headers.filterMap (fun line => line.2.toStr.map (fun s => (line.1.text, s)))

namespace CacheConfig

/-- What a key says of one request header: its first line, if that is a string. -/
def varyValue (headers : HeaderMap) (name : Str) : Str :=
  (((HeaderName.parse name).bind headers.get).bind HeaderValue.toStr).getD []

def key (config : CacheConfig) (method host target : Str) (headers : HeaderMap) : Str :=
  method ++ '\n' :: host ++ '\n' :: target ++
    config.vary.flatMap (fun name => '\n' :: name ++ '=' :: varyValue headers name)

def requestAllowsCache (config : CacheConfig) (method : Str) (headers : HeaderMap) : Bool :=
  config.methods.any (fun m => m.eqIgnoreAsciiCase method) && ((cacheControl headers).get? "no-store").isNone

/-- The response varies on something that the keys do not hold. -/
def variesOtherwise (config : CacheConfig) (headers : HeaderMap) : Bool :=
  match headers.getStr .vary with
  | none => false
  | some vary =>
    (vary.splitOn ',').any (fun field =>
      let field := Str.trim field
      field ≠ [] && (field = ['*'] || !config.vary.any (fun v => v.eqIgnoreAsciiCase field)))

def cacheableTtl (config : CacheConfig) (status : Nat) (headers : HeaderMap) : Option Duration :=
  if status ≠ 200 then none
  else if headers.containsKey .setCookie then none
  else if config.variesOtherwise headers then none
  else
    let cc := cacheControl headers
    if (cc.get? "no-store").isSome ∨ (cc.get? "private").isSome then none
    else if (cc.get? "no-cache").isSome then some .zero
    else
      match ((cc.get? "s-maxage").or (cc.get? "max-age")).bind (Str.parseUnsigned 64) with
      | some secs => some (.fromSecs (UInt64.ofNat secs))
      | none => some config.defaultTtl

end CacheConfig

/-! ## Reading and writing -/

/-- A sum of durations that overflows. -/
inductive Panic
  | overflow
  deriving DecidableEq, Repr

def lookup (now : Nat) (key : Str) (store : MemoryStore) : Except Panic (Option Hit) × MemoryStore :=
  if store.poisoned then (.ok none, store)
  else
    match store.inner.map.get? key with
    | none => (.ok none, store)
    | some entry =>
      let age := now - entry.storedAt
      let hit (freshness : Freshness) : Hit :=
        ⟨entry.status, entry.headers, entry.body, Duration.asSecs age, freshness⟩
      if age ≤ entry.ttl.nanos then (.ok (some (hit .fresh)), store)
      else
        match entry.ttl.checkedAdd entry.swr with
        | none => (.error .overflow, { store with poisoned := true })
        | some window =>
          if age ≤ window.nanos then (.ok (some (hit .stale)), store)
          else (.ok none, { store with inner := (store.inner.remove key).2 })

def maybeStore (config : CacheConfig) (now : Nat) (order : Iteration Str Entry) (key : Str) (status : Nat)
    (headers : HeaderMap) (body : List UInt8) (store : MemoryStore) : Bool × MemoryStore :=
  match config.cacheableTtl status headers with
  | none => (false, store)
  | some ttl =>
    if config.maxBodyBytes < body.length then (false, store)
    else if store.poisoned then (false, store)
    else
      let inner := (store.inner.remove key).2
      if config.maxEntries ≤ inner.len then (false, { store with inner })
      else
        let inner := inner.evictUntilFits order body.length config.maxTotalBytes
        if config.maxTotalBytes < usizeAdd inner.bytes body.length then (false, { store with inner })
        else
          let entry : Entry :=
            ⟨status, keptHeaders headers, body, now, ttl, config.staleWhileRevalidate, parseTags headers⟩
          (true, { store with inner := ⟨inner.map.insert key entry, usizeAdd inner.bytes body.length⟩ })

/-! ## Runs -/

/-- A call on a store. Those of layers carry the layer's settings. -/
inductive Call
  | maybeStore (config : CacheConfig) (order : Iteration Str Entry) (key : Str) (status : Nat) (headers : HeaderMap)
      (body : List UInt8)
  | lookup (key : Str)
  | purgeTag (tag : Str)
  | clear

/-- A call and when it is made. -/
structure Timed where
  now : Nat
  call : Call

def MemoryStore.step (store : MemoryStore) (c : Timed) : MemoryStore :=
  match c.call with
  | .maybeStore config order key status headers body =>
    (Cache.maybeStore config c.now order key status headers body store).2
  | .lookup key => (Cache.lookup c.now key store).2
  | .purgeTag tag => (store.purgeTag tag).2
  | .clear => store.clear

end Pulsate.Cache
