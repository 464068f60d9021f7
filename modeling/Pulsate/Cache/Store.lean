import Mathlib.Data.List.MinMax
import Pulsate.Lib.OrdMap
import Pulsate.Std.Str
import Pulsate.Std.Time

/-!
# The cache store (`pulsate-cache`)

The entries are behind a mutex together with a count of their bytes. A panic under the mutex poisons it, and from then on every
call finds it locked for good. The hash map's order of iteration decides between entries of one age; it is a parameter of
the calls that iterate.
-/

namespace Pulsate.Cache

open Lib (OrdMap Iteration)

/-- The sum of two sizes in a machine word. -/
def usizeAdd (a b : Nat) : Nat := (a + b) % 2 ^ 64

structure Entry where
  status : Nat
  headers : List (Str × Str)
  body : List UInt8
  storedAt : Nat
  ttl : Duration
  swr : Duration
  tags : List Str
  deriving DecidableEq, Repr

structure Inner where
  map : OrdMap Str Entry
  bytes : Nat
  deriving DecidableEq

namespace Inner

def empty : Inner := ⟨∅, 0⟩

def len (inner : Inner) : Nat := inner.map.entries.length

/-- The subtraction is a saturating one. -/
def remove (inner : Inner) (key : Str) : Option Entry × Inner :=
  match inner.map.get? key with
  | none => (none, inner)
  | some entry => (some entry, ⟨inner.map.erase key, inner.bytes - entry.body.length⟩)

/-! ## Eviction -/

/-- The key of the entry stored first; of several, the first in the order of iteration. -/
def oldest (order : Iteration Str Entry) (inner : Inner) : Option Str :=
  ((order.arrange inner.map.entries).argmin (·.2.storedAt)).map (·.1)

/-- One turn of the loop, or nothing where the loop ends. -/
def evictOne (order : Iteration Str Entry) (incoming budget : Nat) (inner : Inner) : Option Inner :=
  if budget < usizeAdd inner.bytes incoming then
    (inner.oldest order).bind (fun key =>
      match inner.remove key with
      | (none, _) => none
      | (some _, inner) => some inner)
  else none

def evictFuel (order : Iteration Str Entry) (incoming budget : Nat) : Nat → Inner → Inner
  | 0, inner => inner
  | fuel + 1, inner =>
    match inner.evictOne order incoming budget with
    | none => inner
    | some inner => evictFuel order incoming budget fuel inner

/-- `evict_until_fits`. Every turn takes an entry out, so there are no more turns than entries. -/
def evictUntilFits (order : Iteration Str Entry) (inner : Inner) (incoming budget : Nat) : Inner :=
  evictFuel order incoming budget inner.len inner

end Inner

/-- The loop takes the entries out one after another, and ends. -/
inductive Eviction (order : Iteration Str Entry) (incoming budget : Nat) : Inner → List (Str × Entry) → Inner → Prop
  | done {inner : Inner} (h : inner.evictOne order incoming budget = none) : Eviction order incoming budget inner [] inner
  | turn {inner final : Inner} {key : Str} {e : Entry} {evicted : List (Str × Entry)}
      (hfull : budget < usizeAdd inner.bytes incoming) (hold : inner.oldest order = some key) (he : inner.map.get? key = some e)
      (h : Eviction order incoming budget (inner.remove key).2 evicted final) :
      Eviction order incoming budget inner ((key, e) :: evicted) final

structure MemoryStore where
  inner : Inner
  poisoned : Bool
  deriving DecidableEq

namespace MemoryStore

def new : MemoryStore := ⟨.empty, false⟩

def len (store : MemoryStore) : Nat := if store.poisoned then 0 else store.inner.len

def bytes (store : MemoryStore) : Nat := if store.poisoned then 0 else store.inner.bytes

def purgeTag (store : MemoryStore) (tag : Str) : Nat × MemoryStore :=
  if store.poisoned then (0, store)
  else
    let before := store.inner.len
    let map := store.inner.map.retain (fun _ e => !e.tags.any (· = tag))
    let freed := ((store.inner.map.retain (fun _ e => e.tags.any (· = tag))).values).foldl
      (fun freed e => usizeAdd freed e.body.length) 0
    (before - map.entries.length, { store with inner := ⟨map, store.inner.bytes - freed⟩ })

def clear (store : MemoryStore) : MemoryStore := if store.poisoned then store else { store with inner := .empty }

end MemoryStore

end Pulsate.Cache
