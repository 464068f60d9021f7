import Pulsate.Cache.Timed

/-!
# What the operations on a store change

Everything that takes entries out goes through `Inner.remove`, one key at a time, or through `OrdMap.retain`.
-/

namespace Pulsate.Cache

open List Option Pulsate.Cache.Inner
open Http (HeaderMap)
open Lib (OrdMap Iteration)

variable {order : Iteration Str Entry} {incoming budget : Nat} {inner final : Inner} {key : Str} {evicted : List (Str × Entry)}

namespace Inner

/-! ## Removal -/

theorem remove_of_none (h : inner.map.get? key = none) : inner.remove key = (none, inner) := by
  rw [remove, h]

theorem remove_of_some {entry : Entry} (h : inner.map.get? key = some entry) :
    inner.remove key = (some entry, ⟨inner.map.erase key, inner.bytes - entry.body.length⟩) := by
  rw [remove, h]

theorem get?_remove (inner : Inner) (key k : Str) :
    (inner.remove key).2.map.get? k = if k = key then none else inner.map.get? k := by
  cases h : inner.map.get? key with
  | none =>
    rw [remove_of_none h]
    by_cases hk : k = key
    · rw [if_pos hk, hk, h]
    · rw [if_neg hk]
  | some entry =>
    rw [remove_of_some h]
    by_cases hk : k = key
    · rw [if_pos hk, hk]
      exact OrdMap.get?_erase_self inner.map key
    · rw [if_neg hk]
      exact OrdMap.get?_erase_ne inner.map hk

theorem len_eq (inner : Inner) : inner.len = inner.map.weigh (fun _ => 1) := OrdMap.length_entries_eq_weigh inner.map

theorem weigh_remove_le (f : Entry → Nat) (inner : Inner) (key : Str) :
    (inner.remove key).2.map.weigh f ≤ inner.map.weigh f := by
  cases h : inner.map.get? key with
  | none => rw [remove_of_none h]
  | some entry =>
    rw [remove_of_some h, OrdMap.weigh_erase f h]
    exact Nat.le_add_left _ _

theorem bytes_remove_le (inner : Inner) (key : Str) : (inner.remove key).2.bytes ≤ inner.bytes := by
  cases h : inner.map.get? key with
  | none => rw [remove_of_none h]
  | some entry =>
    rw [remove_of_some h]
    exact Nat.sub_le _ _

/-! ## Eviction -/

theorem oldest_mem {k : Str} (h : inner.oldest order = some k) : ∃ e, inner.map.get? k = some e := by
  obtain ⟨⟨k', e⟩, hmin, rfl⟩ := map_eq_some_iff.mp h
  have hmem := (order.perm inner.map.entries).mem_iff.mp (argmin_mem hmin)
  exact ⟨e, OrdMap.mem_entries_iff.mp hmem⟩

theorem evictOne_eq_some {inner' : Inner} (h : inner.evictOne order incoming budget = some inner') :
    budget < usizeAdd inner.bytes incoming ∧ ∃ k e, inner.oldest order = some k ∧ inner.map.get? k = some e ∧
      inner' = (inner.remove k).2 := by
  unfold evictOne at h
  split at h
  · rename_i hfull
    obtain ⟨k, hold, h⟩ := bind_eq_some_iff.mp h
    obtain ⟨e, he⟩ := oldest_mem hold
    rw [remove_of_some he] at h
    cases h
    exact ⟨hfull, k, e, hold, he, by rw [remove_of_some he]⟩
  · cases h

/-- The loop ends where what arrives fits, or nothing is left. -/
theorem evictOne_eq_none (h : inner.evictOne order incoming budget = none) :
    usizeAdd inner.bytes incoming ≤ budget ∨ inner.map.entries = [] := by
  by_cases hfull : budget < usizeAdd inner.bytes incoming
  · refine .inr ?_
    by_contra hne
    have hsome : ∃ k, inner.oldest order = some k := by
      rw [← ne_none_iff_exists']
      intro hnone
      rw [oldest, map_eq_none_iff, argmin_eq_none] at hnone
      have hperm := order.perm inner.map.entries
      rw [hnone] at hperm
      exact hne hperm.nil_eq.symm
    obtain ⟨k, hk⟩ := hsome
    obtain ⟨e, he⟩ := oldest_mem hk
    rw [evictOne, if_pos hfull, hk, bind_some, remove_of_some he] at h
    cases h
  · exact .inl (not_lt.mp hfull)

end Inner

theorem exists_eviction (inner : Inner) : ∃ evicted, Eviction order incoming budget inner evicted (inner.evictUntilFits order incoming budget) := by
  unfold evictUntilFits
  generalize hfuel : inner.len = fuel
  induction fuel generalizing inner with
  | zero =>
    refine ⟨[], .done ?_⟩
    cases hone : inner.evictOne order incoming budget with
    | none => rfl
    | some inner' =>
      obtain ⟨-, k, e, -, he, -⟩ := evictOne_eq_some hone
      rw [len_eq, OrdMap.weigh_erase _ he] at hfuel
      omega
  | succ fuel ih =>
    rw [evictFuel]
    cases hone : inner.evictOne order incoming budget with
    | none => exact ⟨[], .done hone⟩
    | some inner' =>
      obtain ⟨hfull, k, e, hold, he, rfl⟩ := evictOne_eq_some hone
      have hlen : (inner.remove k).2.len = fuel := by
        rw [len_eq, OrdMap.weigh_erase _ he] at hfuel
        rw [remove_of_some he, len_eq]
        dsimp only
        omega
      obtain ⟨evicted, hrest⟩ := ih _ hlen
      exact ⟨(k, e) :: evicted, .turn hfull hold he hrest⟩

theorem Eviction.end (h : Eviction order incoming budget inner evicted final) : final.evictOne order incoming budget = none := by
  induction h with
  | done h => exact h
  | turn _ _ _ _ ih => exact ih

theorem Eviction.invariant {P : Inner → Prop} (h : Eviction order incoming budget inner evicted final)
    (hremove : ∀ inner key, P inner → P (inner.remove key).2) (hi : P inner) : P final := by
  induction h with
  | done => exact hi
  | turn _ _ _ _ ih => exact ih (hremove _ _ hi)

theorem Eviction.get?_eq (h : Eviction order incoming budget inner evicted final) (k : Str) :
    final.map.get? k = if k ∈ evicted.map Prod.fst then none else inner.map.get? k := by
  induction h with
  | done => rfl
  | @turn inner final key e evicted _ _ _ _ ih =>
    rw [ih, get?_remove]
    by_cases hk : k = key
    · simp [hk]
    · simp only [hk, if_false, map_cons, mem_cons, false_or]

theorem Eviction.get?_of_mem (h : Eviction order incoming budget inner evicted final) :
    ∀ removed ∈ evicted, inner.map.get? removed.1 = some removed.2 := by
  induction h with
  | done => simp
  | @turn inner final key e evicted _ _ he _ ih =>
    rw [forall_mem_cons]
    refine ⟨he, fun removed hmem => ?_⟩
    have hget := ih removed hmem
    rw [get?_remove] at hget
    split at hget
    · cases hget
    · exact hget

theorem Inner.oldest_le {e e' : Entry} {k : Str} (hold : inner.oldest order = some key) (he : inner.map.get? key = some e)
    (he' : inner.map.get? k = some e') : e.storedAt ≤ e'.storedAt := by
  obtain ⟨⟨key', e''⟩, hmin, rfl⟩ := map_eq_some_iff.mp hold
  have hmem := (order.perm inner.map.entries).mem_iff.mp (argmin_mem hmin)
  cases he.symm.trans (OrdMap.mem_entries_iff.mp hmem)
  have hmem' := (order.perm inner.map.entries).mem_iff.mpr (OrdMap.mem_entries_iff.mpr he')
  exact le_of_mem_argmin (f := fun entry : Str × Entry => entry.2.storedAt) hmem' hmin

theorem Eviction.storedAt_le (h : Eviction order incoming budget inner evicted final) {removed : Str × Entry} (hmem : removed ∈ evicted)
    {k : Str} {e : Entry} (he : final.map.get? k = some e) : removed.2.storedAt ≤ e.storedAt := by
  induction h with
  | done => cases hmem
  | @turn inner final key e' evicted hfull hold he' hrest ih =>
    rcases mem_cons.mp hmem with rfl | hmem
    · have hbefore := he
      rw [hrest.get?_eq, get?_remove] at hbefore
      split at hbefore
      · cases hbefore
      · split at hbefore
        · cases hbefore
        · exact oldest_le hold he' hbefore
    · exact ih hmem he

namespace Inner

theorem evictUntilFits_induction {P : Inner → Prop} (hremove : ∀ inner key, P inner → P (inner.remove key).2)
    (h : P inner) : P (inner.evictUntilFits order incoming budget) := by
  obtain ⟨evicted, hev⟩ := @exists_eviction order incoming budget inner
  exact hev.invariant hremove h

theorem evictOne_evictUntilFits (inner : Inner) :
    (inner.evictUntilFits order incoming budget).evictOne order incoming budget = none := by
  obtain ⟨evicted, hev⟩ := @exists_eviction order incoming budget inner
  exact hev.end

end Inner

/-! ## Looking up -/

/-- What a lookup does. -/
inductive Looks (now : Nat) (key : Str) (store : MemoryStore) : Except Panic (Option Hit) × MemoryStore → Prop
  | locked (hp : store.poisoned) : Looks now key store (.ok none, store)
  | missed (hp : store.poisoned = false) (h : store.inner.map.get? key = none) : Looks now key store (.ok none, store)
  | served {e : Entry} (hp : store.poisoned = false) (h : store.inner.map.get? key = some e) (hyoung : Servable now e) :
      Looks now key store (.ok (some (hitOf now e)), store)
  | expired {e : Entry} (hp : store.poisoned = false) (h : store.inner.map.get? key = some e)
      (hfits : e.ttl.nanos + e.swr.nanos < 2 ^ 64 * 10 ^ 9) (hold : e.ttl.nanos + e.swr.nanos < now - e.storedAt) :
      Looks now key store (.ok none, { store with inner := (store.inner.remove key).2 })
  | overflowed {e : Entry} (hp : store.poisoned = false) (h : store.inner.map.get? key = some e)
      (hage : e.ttl.nanos < now - e.storedAt) (hover : 2 ^ 64 * 10 ^ 9 ≤ e.ttl.nanos + e.swr.nanos) :
      Looks now key store (.error .overflow, { store with poisoned := true })

theorem looks (now : Nat) (key : Str) (store : MemoryStore) : Looks now key store (lookup now key store) := by
  unfold lookup
  split
  · exact .locked ‹_›
  · rename_i hp
    replace hp := Bool.eq_false_iff.mpr hp
    split
    · exact .missed hp ‹_›
    · rename_i e he
      dsimp only
      split
      · rename_i hfresh
        have h := Looks.served hp he (.inl hfresh)
        rwa [hitOf, if_pos hfresh] at h
      · rename_i hage
        by_cases hfits : e.ttl.nanos + e.swr.nanos < 2 ^ 64 * 10 ^ 9
        · have hadd : e.ttl.checkedAdd e.swr = some ⟨_, hfits⟩ := dif_pos hfits
          rw [hadd]
          dsimp only
          split
          · rename_i hwindow
            have h := Looks.served hp he (.inr ⟨hfits, hwindow⟩)
            rwa [hitOf, if_neg hage] at h
          · exact .expired hp he hfits (Nat.not_le.mp ‹_›)
        · have hadd : e.ttl.checkedAdd e.swr = none := dif_neg hfits
          rw [hadd]
          exact .overflowed hp he (Nat.not_le.mp hage) (Nat.not_lt.mp hfits)

theorem lookup_inner (now : Nat) (key : Str) (store : MemoryStore) :
    (lookup now key store).2.inner = store.inner ∨ (lookup now key store).2.inner = (store.inner.remove key).2 := by
  have hlooks := looks now key store
  generalize lookup now key store = r at hlooks ⊢
  cases hlooks with
  | expired => exact .inr rfl
  | _ => exact .inl rfl

/-! ## Storing -/

/-- The state in which it is decided whether a body of a size goes in: the key is free, and unless there are too many
entries, old ones have made room. -/
def makeRoom (config : CacheConfig) (order : Iteration Str Entry) (key : Str) (size : Nat) (inner : Inner) : Inner :=
  if config.maxEntries ≤ (inner.remove key).2.len then (inner.remove key).2
  else (inner.remove key).2.evictUntilFits order size config.maxTotalBytes

/-- There is room for one more entry, and for its body. -/
def HasRoom (config : CacheConfig) (order : Iteration Str Entry) (key : Str) (size : Nat) (inner : Inner) : Prop :=
  (inner.remove key).2.len < config.maxEntries ∧
    usizeAdd (makeRoom config order key size inner).bytes size ≤ config.maxTotalBytes

section Store

variable {config : CacheConfig} {now status size : Nat} {headers : HeaderMap} {body : List UInt8} {store : MemoryStore}
variable {ttl : Duration}

theorem maybeStore_of_not_admitted (h : ∀ ttl, ¬ Admitted config status headers body store ttl) :
    maybeStore config now order key status headers body store = (false, store) := by
  unfold maybeStore
  split
  · rfl
  · rename_i ttl httl
    split
    · rfl
    · rename_i hsmall
      split
      · rfl
      · rename_i hhealthy
        exact absurd ⟨httl, Nat.not_lt.mp hsmall, Bool.eq_false_iff.mpr hhealthy⟩ (h ttl)

theorem maybeStore_of_room (h : Admitted config status headers body store ttl)
    (hroom : HasRoom config order key body.length store.inner) :
    maybeStore config now order key status headers body store =
      (true, { store with inner :=
        ⟨(makeRoom config order key body.length store.inner).map.insert key (entryOf config now status headers body ttl),
          usizeAdd (makeRoom config order key body.length store.inner).bytes body.length⟩ }) := by
  obtain ⟨hlen, hbytes⟩ := hroom
  rw [makeRoom, if_neg (Nat.not_le.mpr hlen)] at hbytes ⊢
  rw [maybeStore, h.cacheable]
  simp only [Nat.not_lt.mpr h.small, h.healthy, Nat.not_le.mpr hlen, Nat.not_lt.mpr hbytes, ↓reduceIte,
    Bool.false_eq_true]
  rfl

theorem maybeStore_of_no_room (h : Admitted config status headers body store ttl)
    (hroom : ¬ HasRoom config order key body.length store.inner) :
    maybeStore config now order key status headers body store =
      (false, { store with inner := makeRoom config order key body.length store.inner }) := by
  rw [maybeStore, h.cacheable]
  simp only [Nat.not_lt.mpr h.small, h.healthy, ↓reduceIte, Bool.false_eq_true]
  by_cases hlen : config.maxEntries ≤ (store.inner.remove key).2.len
  · rw [if_pos hlen, makeRoom, if_pos hlen]
  · have hfull : config.maxTotalBytes < usizeAdd (makeRoom config order key body.length store.inner).bytes body.length :=
      Nat.not_le.mp (fun hbytes => hroom ⟨Nat.not_le.mp hlen, hbytes⟩)
    rw [makeRoom, if_neg hlen] at hfull ⊢
    rw [if_neg hlen, if_pos hfull]

theorem maybeStore_fst : (maybeStore config now order key status headers body store).1 ↔
    (∃ ttl, Admitted config status headers body store ttl) ∧ HasRoom config order key body.length store.inner := by
  by_cases h : ∃ ttl, Admitted config status headers body store ttl
  · obtain ⟨ttl, h⟩ := h
    by_cases hroom : HasRoom config order key body.length store.inner
    · rw [maybeStore_of_room h hroom]
      exact iff_of_true rfl ⟨⟨ttl, h⟩, hroom⟩
    · rw [maybeStore_of_no_room h hroom]
      exact iff_of_false Bool.false_ne_true (fun hc => hroom hc.2)
  · rw [maybeStore_of_not_admitted (fun ttl hc => h ⟨ttl, hc⟩)]
    exact iff_of_false Bool.false_ne_true (fun hc => h hc.1)

theorem makeRoom_induction {P : Inner → Prop} (hremove : ∀ inner key, P inner → P (inner.remove key).2)
    {inner : Inner} (h : P inner) : P (makeRoom config order key size inner) := by
  unfold makeRoom
  split
  · exact hremove inner key h
  · exact evictUntilFits_induction hremove (hremove inner key h)

theorem get?_makeRoom_self (config : CacheConfig) (order : Iteration Str Entry) (key : Str) (size : Nat) (inner : Inner) :
    (makeRoom config order key size inner).map.get? key = none := by
  have hself : (inner.remove key).2.map.get? key = none := by rw [get?_remove, if_pos rfl]
  have hkeeps : ∀ (inner : Inner) (k : Str), inner.map.get? key = none → (inner.remove k).2.map.get? key = none := by
    intro inner k h
    rw [get?_remove, h, ite_self]
  unfold makeRoom
  split
  · exact hself
  · exact evictUntilFits_induction hkeeps hself

/-- What is left where room is made was there before. -/
theorem get?_of_makeRoom {inner : Inner} {k : Str} {e : Entry}
    (h : (makeRoom config order key size inner).map.get? k = some e) : inner.map.get? k = some e := by
  refine makeRoom_induction (P := fun i => i.map.get? k = some e → inner.map.get? k = some e) ?_ id h
  intro i k' hi hk
  rw [get?_remove] at hk
  split at hk
  · cases hk
  · exact hi hk

theorem weigh_makeRoom_le_remove (f : Entry → Nat) (inner : Inner) :
    (makeRoom config order key size inner).map.weigh f ≤ (inner.remove key).2.map.weigh f := by
  unfold makeRoom
  split
  · exact le_rfl
  · refine evictUntilFits_induction (P := fun i => i.map.weigh f ≤ (inner.remove key).2.map.weigh f) ?_ le_rfl
    intro i k hi
    exact (weigh_remove_le f i k).trans hi

theorem weigh_makeRoom_le (f : Entry → Nat) (inner : Inner) :
    (makeRoom config order key size inner).map.weigh f ≤ inner.map.weigh f :=
  (weigh_makeRoom_le_remove f inner).trans (weigh_remove_le f inner key)

end Store

end Pulsate.Cache
