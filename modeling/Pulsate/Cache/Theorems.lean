import Pulsate.Cache.Lemmas.Accounting
import Pulsate.Cache.Lemmas.Directives
import Pulsate.Cache.Lemmas.Timed

/-!
# Results about cache stores
-/

namespace Pulsate.Cache

open List Lib OrdMap MemoryStore
open Http (HeaderMap HeaderName HeaderValue)
open Lib (Iteration OrdMap Permits run)

/-! ## Accounting -/

/-- The states that the eviction loop of a call passes. -/
inductive Evicting (order : Iteration Str Entry) (incoming budget : Nat) (start : Inner) : Inner → Prop
  | start : Evicting order incoming budget start start
  | turn {inner inner' : Inner} : Evicting order incoming budget start inner →
      inner.evictOne order incoming budget = some inner' → Evicting order incoming budget start inner'

theorem Accounted.evicting {order : Iteration Str Entry} {incoming budget : Nat} {start inner : Inner} (h : Accounted start)
    (hev : Evicting order incoming budget start inner) : Accounted inner := by
  induction hev with
  | start => exact h
  | turn _ hone ih =>
    obtain ⟨-, k, e, -, -, rfl⟩ := Inner.evictOne_eq_some hone
    exact ih.remove k

/-- The counter is the sum of the bodies after every run, and nothing subtracted from it then, be it in the middle of an
eviction, is more than it counts. Where all layers have the same settings, the store keeps to them. -/
theorem store_accounted (calls : List Timed) (h : Permits Fits step .new calls) :
    (run step .new calls).inner.bytes = (run step .new calls).inner.total ∧
    Covered (run step .new calls).inner ∧
    (∀ key order incoming budget inner,
      Evicting order incoming budget ((run step .new calls).inner.remove key).2 inner → Covered inner) ∧
    ∀ config, (∀ c ∈ calls, c.call.Uses config) → Bounded config (run step .new calls).inner := by
  have hacc : Accounted (run step .new calls).inner := by
    refine history_invariant (I := fun _ store => Accounted store.inner) accounted_empty ?_ calls h
    intro es c hpermits hi
    exact hi.step (permits_concat.mp hpermits).2
  refine ⟨hacc.exact, hacc.covered, fun key order incoming budget inner hev => ?_, fun config huses => ?_⟩
  · exact ((hacc.remove key).evicting hev).covered
  · clear h hacc
    induction calls using List.reverseRecOn with
    | nil => exact bounded_empty config
    | append_singleton calls c ih =>
      rw [run_concat]
      refine (ih fun c hc => huses c (mem_append_left _ hc)).step (huses c ?_)
      exact mem_append_right _ mem_cons_self

def smallConfig : CacheConfig := ⟨.fromSecs 60, ["GET"], [], .zero, 10, 8, 8⟩

/-- Three bodies of three bytes, the second and the third under one key. -/
def threeStores : List Timed :=
  [⟨0, .maybeStore smallConfig (.byKey _ _) "a" 200 [] [1, 2, 3]⟩,
    ⟨1, .maybeStore smallConfig (.byKey _ _) "b" 200 [] [1, 2, 3]⟩,
    ⟨2, .maybeStore smallConfig (.byKey _ _) "b" 200 [] [4, 5, 6]⟩]

theorem store_accounted_three : (run step .new threeStores).inner.bytes =
      (run step .new threeStores).inner.total ∧
    Bounded smallConfig (run step .new threeStores).inner := by
  have hfits : Permits Fits step .new threeStores := by
    exact ⟨by decide, by decide, by decide, trivial⟩
  obtain ⟨hexact, -, -, hbounded⟩ := store_accounted threeStores hfits
  refine ⟨hexact, hbounded smallConfig (fun c hc => ?_)⟩
  simp only [threeStores, mem_cons, not_mem_nil, or_false] at hc
  rcases hc with rfl | rfl | rfl <;> rfl

/-! ## Eviction -/

/-- What is stored takes the place of entries that are no younger than those that stay, and of no more of them than it must. -/
theorem evicts_oldest (config : CacheConfig) (now : Nat) (order : Iteration Str Entry) (key : Str) (status : Nat) (headers : HeaderMap)
    (body : List UInt8) (store : MemoryStore)
    (hstored : (maybeStore config now order key status headers body store).1) :
    ∃ evicted final, Eviction order body.length config.maxTotalBytes (store.inner.remove key).2 evicted final ∧
      (∀ k e, (k, e) ∈ evicted ↔ k ≠ key ∧ store.inner.map.get? k = some e ∧
        (maybeStore config now order key status headers body store).2.inner.map.get? k = none) ∧
      (∀ k e, k ≠ key → (maybeStore config now order key status headers body store).2.inner.map.get? k = some e →
        store.inner.map.get? k = some e ∧ ∀ removed ∈ evicted, removed.2.storedAt ≤ e.storedAt) ∧
      ∀ removed, evicted.getLast? = some removed →
        config.maxTotalBytes < (maybeStore config now order key status headers body store).2.inner.bytes + removed.2.body.length ∧
        (Accounted store.inner → config.maxTotalBytes <
          (maybeStore config now order key status headers body store).2.inner.total + removed.2.body.length) := by
  obtain ⟨⟨ttl, hadm⟩, hroom⟩ := maybeStore_fst.mp hstored
  have hmake : makeRoom config order key body.length store.inner =
      (store.inner.remove key).2.evictUntilFits order body.length config.maxTotalBytes := if_neg (not_le.mpr hroom.1)
  rw [maybeStore_of_room hadm hroom]
  obtain ⟨evicted, hev⟩ := @exists_eviction order body.length config.maxTotalBytes (store.inner.remove key).2
  rw [← hmake] at hev
  have hfresh := get?_makeRoom_self config order key body.length store.inner
  generalize makeRoom config order key body.length store.inner = final at hev hfresh
  have hkept (k : Str) (hk : k ≠ key) : final.map.get? k = if k ∈ evicted.map Prod.fst then none else store.inner.map.get? k := by
    rw [hev.get?_eq, Inner.get?_remove, if_neg hk]
  have hgone (removed : Str × Entry) (hmem : removed ∈ evicted) :
      removed.1 ≠ key ∧ store.inner.map.get? removed.1 = some removed.2 := by
    have hget := hev.get?_of_mem removed hmem
    rw [Inner.get?_remove] at hget
    split at hget
    · cases hget
    · rename_i hk
      exact ⟨hk, hget⟩
  refine ⟨evicted, final, hev, fun k e => ⟨fun hmem => ?_, ?_⟩, fun k e hk he => ?_, fun removed hlast => ?_⟩
  · obtain ⟨hk, hget⟩ := hgone (k, e) hmem
    refine ⟨hk, hget, ?_⟩
    dsimp only
    rw [get?_insert_ne _ _ hk, hkept k hk, if_pos (mem_map_of_mem hmem)]
  · rintro ⟨hk, hget, hnone⟩
    dsimp only at hnone
    rw [get?_insert_ne _ _ hk, hkept k hk, hget] at hnone
    split at hnone
    · rename_i hkeys
      obtain ⟨⟨k', e'⟩, hmem, rfl⟩ := mem_map.mp hkeys
      cases hget.symm.trans (hgone _ hmem).2
      exact hmem
    · cases hnone
  · dsimp only at he
    rw [get?_insert_ne _ _ hk] at he
    refine ⟨?_, fun removed hmem => hev.storedAt_le hmem he⟩
    rw [hkept k hk] at he
    split at he
    · cases he
    · exact he
  · obtain ⟨before, hfull, hget, rfl, hacc⟩ := hev.last hlast
    dsimp only
    rw [Inner.remove_of_some hget]
    dsimp only
    constructor
    · have hwrap : usizeAdd before.bytes body.length ≤
          usizeAdd (before.bytes - removed.2.body.length) body.length + removed.2.body.length := by
        unfold usizeAdd
        omega
      omega
    · intro h
      have hexact := (hacc (h.remove key)).exact
      have hsum := weigh_erase (fun e : Entry => e.body.length) hget
      have hle : usizeAdd before.bytes body.length ≤ before.bytes + body.length := Nat.mod_le _ _
      rw [Inner.remove_of_some hget] at hfresh
      rw [Inner.total, weigh_insert _ hfresh]
      unfold Inner.total at hexact
      simp only [entryOf]
      omega

/-- Three more bytes, and the first three go. -/
theorem evicts_oldest_third : ∃ removed : Entry, smallConfig.maxTotalBytes <
    (maybeStore smallConfig 2 (.byKey _ _) "c" 200 [] [7, 8, 9] (run step .new (threeStores.take 2))).2.inner.total +
      removed.body.length := by
  obtain ⟨evicted, final, -, hset, -, hlast⟩ := evicts_oldest smallConfig 2 (.byKey _ _) "c" 200 [] [7, 8, 9]
    (run step .new (threeStores.take 2)) (by decide)
  have hmem := (hset "a" ⟨200, [], [1, 2, 3], 0, .fromSecs 60, .zero, []⟩).mpr (by decide)
  obtain ⟨removed, hremoved⟩ := Option.ne_none_iff_exists'.mp (mt getLast?_eq_none_iff.mp (ne_nil_of_mem hmem))
  exact ⟨removed.2, (hlast removed hremoved).2 ⟨by decide, by decide⟩⟩

/-! ## Refusals -/

/-- A refused response leaves the store alone exactly if it is refused for its own sake, or the key is free where there are too many
entries, or the store is empty where the body is too large for it. -/
theorem refused_iff (config : CacheConfig) (now : Nat) (order : Iteration Str Entry) (key : Str) (status : Nat) (headers : HeaderMap)
    (body : List UInt8) (store : MemoryStore) (hacc : Accounted store.inner)
    (hfits : store.inner.total + body.length < 2 ^ 64) :
    ((maybeStore config now order key status headers body store).1 = false →
        (maybeStore config now order key status headers body store).2 = store) ↔
      ((∃ ttl, Admitted config status headers body store ttl) →
        if config.maxEntries ≤ (store.inner.remove key).2.len then store.inner.map.get? key = none
        else config.maxTotalBytes < body.length → store.inner.len = 0) := by
  by_cases hadm : ∃ ttl, Admitted config status headers body store ttl
  · rw [imp_iff_right hadm]
    obtain ⟨ttl, hadm⟩ := hadm
    have hiff := @hasRoom_iff order store key config body hacc hfits
    by_cases hroom : HasRoom config order key body.length store.inner
    · rw [maybeStore_of_room hadm hroom]
      refine iff_of_true (fun h => by cases h) ?_
      rw [if_neg (not_le.mpr hroom.1)]
      exact fun hlarge => absurd (hiff.mp hroom).2 (not_le.mpr hlarge)
    · rw [maybeStore_of_no_room hadm hroom]
      have hsame : ((false = false → ({ store with inner := makeRoom config order key body.length store.inner } : MemoryStore) = store) ↔
          makeRoom config order key body.length store.inner = store.inner) := by
        rw [imp_iff_right rfl]
        exact ⟨fun h => congrArg inner h, fun h => by rw [h]⟩
      rw [hsame, makeRoom]
      split
      · constructor
        · intro h
          rw [← h, Inner.get?_remove, if_pos rfl]
        · intro h
          rw [Inner.remove_of_none h]
      · rename_i hlen
        have hlarge : config.maxTotalBytes < body.length := by
          by_contra hle
          exact hroom (hiff.mpr ⟨not_le.mp hlen, not_lt.mp hle⟩)
        rw [imp_iff_right hlarge, (hacc.remove key).evictUntilFits_eq_empty ?_ hlarge]
        · constructor
          · rintro h
            rw [← h]
            rfl
          · intro h
            exact (hacc.eq_empty (length_eq_zero_iff.mp h)).symm
        · exact Nat.lt_of_le_of_lt (Nat.add_le_add_right (Inner.weigh_remove_le _ _ _) _) hfits
  · rw [maybeStore_of_not_admitted (fun ttl hc => hadm ⟨ttl, hc⟩)]
    exact iff_of_true (fun _ => rfl) (fun h => absurd h hadm)

/-- A store with two entries, and no place for a third, keeps both. -/
theorem refused_iff_full : ∃ store, store.inner.len = 2 ∧
    (maybeStore { smallConfig with maxEntries := 2 } 2 (.byKey _ _) "c" 200 [] [7] store).1 = false ∧
    (maybeStore { smallConfig with maxEntries := 2 } 2 (.byKey _ _) "c" 200 [] [7] store).2 = store :=
  ⟨run step .new (threeStores.take 2), by decide, by decide,
    (refused_iff { smallConfig with maxEntries := 2 } 2 (.byKey _ _) "c" 200 [] [7] (run step .new (threeStores.take 2))
      ⟨by decide, by decide⟩ (by decide)).mpr (fun _ => by decide) (by decide)⟩

/-- A body that is too large for the store is refused, and everything else lost. -/
theorem refused_all_lost : ∃ store, Accounted store.inner ∧ store.inner.len = 2 ∧
    (maybeStore { smallConfig with maxBodyBytes := 16 } 2 (.byKey _ _) "c" 200 [] (List.replicate 9 0) store).1 = false ∧
    (maybeStore { smallConfig with maxBodyBytes := 16 } 2 (.byKey _ _) "c" 200 [] (List.replicate 9 0) store).2 = .new :=
  ⟨run step .new (threeStores.take 2), ⟨by decide, by decide⟩, by decide, by decide, by decide⟩

/-! ## A timed map -/

/-- A lookup answers from the response stored last under its key, if no call since then has taken it out and its lifetime
and window are not over. A lookup that finds them over takes the response out; no other changes anything. -/
theorem lookup_refines (calls : List Timed) (hok : ∀ c ∈ calls, NoOverflow c) (now : Nat) (key : Str) :
    (∀ hit, (lookup now key (run step .new calls)).1 = .ok (some hit) ↔
      ∃ pre post s config order status headers body ttl,
        calls = pre ++ ⟨s, .maybeStore config order key status headers body⟩ :: post ∧
        (maybeStore config s order key status headers body (run step .new pre)).1 ∧
        config.cacheableTtl status headers = some ttl ∧
        Permits (fun store c => ¬ Removes key (entryOf config s status headers body ttl) store c) step
          (run step .new (pre ++ [⟨s, .maybeStore config order key status headers body⟩])) post ∧
        now - s ≤ ttl.nanos + config.staleWhileRevalidate.nanos ∧
        hit = ⟨status, keptHeaders headers, body, (now - s) / 10 ^ 9, if now - s ≤ ttl.nanos then .fresh else .stale⟩) ∧
    ∀ store, store = run step .new calls →
      (∀ entry, store.inner.map.get? key = some entry → entry.ttl.nanos + entry.swr.nanos < now - entry.storedAt →
        lookup now key store = (.ok none, { store with inner := (store.inner.remove key).2 })) ∧
      ((∀ entry, store.inner.map.get? key = some entry → now - entry.storedAt ≤ entry.ttl.nanos + entry.swr.nanos) →
        (lookup now key store).2 = store) := by
  have hp := healthy_run hok
  refine ⟨fun hit => ?_, ?_⟩
  · rw [lookup_hit_iff]
    constructor
    · rintro ⟨e, hvis, hservable, rfl⟩
      have hfits := fits_of_visible hok hvis
      obtain ⟨pre, ⟨s, call⟩, post, rfl, hby⟩ := (visible_run_iff calls).mp hvis
      obtain ⟨hput, hkept⟩ := (storedBy_iff hok).mp hby
      obtain ⟨config, order, status, headers, body, ttl, rfl, hstored, httl, rfl⟩ := storedBy_eq_some.mp hput
      refine ⟨pre, post, s, config, order, status, headers, body, ttl, rfl, hstored, httl, hkept, ?_, rfl⟩
      rcases hservable with h | ⟨-, h⟩
      · exact h.trans (Nat.le_add_right _ _)
      · exact h
    · rintro ⟨pre, post, s, config, order, status, headers, body, ttl, rfl, hstored, httl, hkept, hage, rfl⟩
      have hput : storedBy key (run step .new pre) ⟨s, .maybeStore config order key status headers body⟩ =
          some (entryOf config s status headers body ttl) :=
        storedBy_eq_some.mpr ⟨config, order, status, headers, body, ttl, rfl, hstored, httl, rfl⟩
      have hvis := (visible_run_iff _).mpr ⟨pre, _, post, rfl, (storedBy_iff hok).mpr ⟨hput, hkept⟩⟩
      exact ⟨_, hvis, .inr ⟨fits_of_visible hok hvis, hage⟩, rfl⟩
  · rintro store rfl
    have hlooks := looks now key (run step .new calls)
    have hfits {e : Entry} (hget : (run step .new calls).inner.map.get? key = some e) :=
      fits_of_visible hok ((visible_of_healthy hp).trans hget)
    generalize lookup now key (run step .new calls) = r at hlooks ⊢
    refine ⟨fun entry hget hexp => ?_, fun hyoung => ?_⟩
    · have hfits := hfits hget
      cases hlooks with
      | locked h => cases hp.symm.trans h
      | missed _ h => cases hget.symm.trans h
      | served _ h hyoung =>
        cases hget.symm.trans h
        rcases hyoung with h | ⟨-, h⟩ <;> omega
      | expired => rfl
      | overflowed _ h _ hover =>
        cases hget.symm.trans h
        omega
    · cases hlooks with
      | expired _ hget _ hold => exact absurd (hyoung _ hget) (Nat.not_le.mpr hold)
      | overflowed _ hget _ hover => exact absurd (hfits hget) (Nat.not_lt.mpr hover)
      | _ => rfl

theorem lookup_refines_three : ∃ hit, (lookup (2 + 10 ^ 9) "b" (run step .new threeStores)).1 = .ok (some hit) ∧
    hit = ⟨200, [], [4, 5, 6], 1, .fresh⟩ := by
  have hok : ∀ c ∈ threeStores, NoOverflow c := by
    intro c hc
    simp only [threeStores, mem_cons, not_mem_nil, or_false] at hc
    rcases hc with rfl | rfl | rfl
    all_goals
      intro ttl httl
      cases httl
      exact of_decide_eq_true rfl
  have hhit := ((lookup_refines threeStores hok (2 + 10 ^ 9) "b").1 ⟨200, [], [4, 5, 6], 1, .fresh⟩).mpr
    ⟨threeStores.take 2, [], 2, smallConfig, .byKey _ _, 200, [], [4, 5, 6], .fromSecs 60, rfl, by decide, rfl, trivial,
      by decide, rfl⟩
  exact ⟨_, hhit, rfl⟩

/-! ## Responses that must not be stored -/

/-- Whatever the store holds, the response is turned away, and nothing comes into the store. -/
def NeverStored (config : CacheConfig) (status : Nat) (headers : HeaderMap) : Prop :=
  ∀ now order key body store, (maybeStore config now order key status headers body store).1 = false ∧
    ∀ k e, (maybeStore config now order key status headers body store).2.inner.map.get? k = some e →
      store.inner.map.get? k = some e

theorem hasRoom_empty {config : CacheConfig} (h : config.maxEntries ≠ 0) (order : Iteration Str Entry) (key : Str) :
    HasRoom config order key 0 .empty := by
  have hremove : (Inner.empty.remove key).2 = .empty := rfl
  have hevict : Inner.evictUntilFits order .empty 0 config.maxTotalBytes = .empty := rfl
  refine ⟨Nat.pos_of_ne_zero h, ?_⟩
  rw [makeRoom, hremove, hevict, ite_self]
  exact Nat.zero_le _

theorem neverStored_iff {config : CacheConfig} {status : Nat} {headers : HeaderMap} :
    NeverStored config status headers ↔ SeenForbidden config status headers ∨ config.maxEntries = 0 := by
  rw [← cacheableTtl_eq_none]
  constructor
  · intro h
    by_contra hnot
    obtain ⟨httl, hentries⟩ := not_or.mp hnot
    obtain ⟨ttl, httl⟩ := Option.ne_none_iff_exists'.mp httl
    -- an empty body goes into an empty store
    have hstored : (maybeStore config 0 (.byKey _ _) [] status headers [] .new).1 :=
      maybeStore_fst.mpr ⟨⟨ttl, httl, Nat.zero_le _, rfl⟩, hasRoom_empty hentries _ _⟩
    exact Bool.false_ne_true ((h 0 (.byKey _ _) [] [] .new).1.symm.trans hstored)
  · rintro h now order key body store
    by_cases hadm : ∃ ttl, Admitted config status headers body store ttl
    · obtain ⟨ttl, hadm⟩ := hadm
      have hentries : config.maxEntries = 0 := h.resolve_left (fun hnone => by
        rw [hadm.cacheable] at hnone
        cases hnone)
      rw [maybeStore_of_no_room hadm (fun hroom => Nat.not_lt_zero _ (hentries ▸ hroom.1))]
      exact ⟨rfl, fun k e he => get?_of_makeRoom he⟩
    · rw [maybeStore_of_not_admitted (fun ttl hc => hadm ⟨ttl, hc⟩)]
      exact ⟨rfl, fun k e he => he⟩

/-- A response that must not be stored is kept out exactly if the first line of a header tells so, or nothing is ever stored. -/
theorem forbidden_neverStored_iff (config : CacheConfig) (status : Nat) (headers : HeaderMap) :
    (Forbidden config status headers → NeverStored config status headers) ↔
      (Forbidden config status headers → SeenForbidden config status headers ∨ config.maxEntries = 0) :=
  imp_congr_right (fun _ => neverStored_iff)

/-- A lifetime on one line and `no-store` on the next. -/
def noStoreSecond : HeaderMap :=
  [(.cacheControl, ⟨Str.bytes "max-age=60", by decide⟩), (.cacheControl, ⟨Str.bytes "no-store", by decide⟩)]

theorem noStoreSecond_stored : Forbidden smallConfig 200 noStoreSecond ∧
    (maybeStore smallConfig 0 (.byKey _ _) "k" 200 noStoreSecond [1] .new).1 := by
  refine ⟨.inl ⟨_, mem_cons_of_mem _ mem_cons_self, ?_⟩, by decide⟩
  exact ⟨"no-store", by decide, by decide⟩

/-! ## Responses that must be revalidated -/

theorem visible_after_store {pre : List Timed} {s : Nat} {config : CacheConfig} {order : Iteration Str Entry} {key : Str}
    {status : Nat} {headers : HeaderMap} {body : List UInt8} {ttl : Duration}
    (hstored : (maybeStore config s order key status headers body (run step .new pre)).1)
    (httl : config.cacheableTtl status headers = some ttl) :
    (run step .new (pre ++ [⟨s, .maybeStore config order key status headers body⟩])).visible key =
      some (entryOf config s status headers body ttl) := by
  rw [run_concat]
  refine ((isSlot_visible key).step_iff _ _ _).mpr (.inl (storedBy_eq_some.mpr ?_))
  exact ⟨config, order, status, headers, body, ttl, rfl, hstored, httl, rfl⟩

/-- After a response has been stored, and as long as no other is stored under its key, a lookup does not answer with it although it
carries `no-cache` exactly if something has taken it out or its window has passed: the configured one, to which the lifetime
is added where the directive does not show on the first line. -/
theorem noCache_unused_iff (pre post : List Timed) (s now : Nat) (config : CacheConfig) (order : Iteration Str Entry) (key : Str)
    (status : Nat) (headers : HeaderMap) (body : List UInt8) (ttl : Duration)
    (hstored : (maybeStore config s order key status headers body (run step .new pre)).1)
    (httl : config.cacheableTtl status headers = some ttl)
    (hlast : Permits (fun store c => storedBy key store c = none) step
      (run step .new (pre ++ [⟨s, .maybeStore config order key status headers body⟩])) post) :
    (Shows "no-cache" headers → ttl = .zero) ∧
    ((Carries "no-cache" headers → ∀ hit, (lookup now key (run step .new
        (pre ++ ⟨s, .maybeStore config order key status headers body⟩ :: post))).1 ≠ .ok (some hit)) ↔
      (Carries "no-cache" headers →
        ¬ Permits (fun store c => ¬ (Removes key (entryOf config s status headers body ttl) store c ∨ Poisons store c))
            step (run step .new (pre ++ [⟨s, .maybeStore config order key status headers body⟩])) post ∨
          ¬ Servable now (entryOf config s status headers body ttl))) := by
  refine ⟨cacheableTtl_of_noCache httl, imp_congr_right (fun _ => ?_)⟩
  have hafter := visible_after_store hstored httl
  rw [← run_split]
  have hkept := fun e => (isSlot_visible key).kept_iff (v := e) hlast
  simp only [lookup_hit_iff, hkept, hafter, ne_eq, Option.some.injEq]
  constructor
  · intro h
    by_contra hnot
    rw [not_or, not_not, not_not] at hnot
    exact h _ ⟨_, ⟨rfl, hnot.1⟩, hnot.2, rfl⟩
  · rintro h hit ⟨e, ⟨rfl, hpermits⟩, hservable, -⟩
    exact h.elim (fun hremoved => hremoved hpermits) (fun hold => hold hservable)

def noCacheOnly : HeaderMap := [(.cacheControl, ⟨Str.bytes "no-cache", by decide⟩)]

theorem noCacheOnly_carries : Carries "no-cache" noCacheOnly :=
  ⟨_, mem_singleton_self _, "no-cache", by decide, by decide⟩

/-- A response stored at 0 with no window is not served a nanosecond later. -/
theorem noCache_unused_next : ¬ ∃ hit, (lookup 1 "k" (run step .new
    [⟨0, .maybeStore smallConfig (.byKey _ _) "k" 200 noCacheOnly [1]⟩])).1 = .ok (some hit) := by
  rintro ⟨hit, hhit⟩
  have hiff := (noCache_unused_iff [] [] 0 1 smallConfig (.byKey _ _) "k" 200 noCacheOnly [1] .zero (by decide) (by decide)
    trivial).2
  refine hiff.mpr (fun _ => .inr ?_) noCacheOnly_carries hit hhit
  unfold Servable
  decide

/-- It is served at 0, and within a window as long as that lasts. -/
theorem noCache_served : Carries "no-cache" noCacheOnly ∧
    (lookup 0 "k" (run step .new [⟨0, .maybeStore smallConfig (.byKey _ _) "k" 200 noCacheOnly [1]⟩])).1 =
      .ok (some ⟨200, [("cache-control", "no-cache")], [1], 0, .fresh⟩) ∧
    (lookup (5 * 10 ^ 9) "k" (run step .new
        [⟨0, .maybeStore { smallConfig with staleWhileRevalidate := .fromSecs 30 } (.byKey _ _) "k" 200 noCacheOnly [1]⟩])).1 =
      .ok (some ⟨200, [("cache-control", "no-cache")], [1], 5, .stale⟩) :=
  ⟨noCacheOnly_carries, by decide, by decide⟩

/-! ## Purging by tag -/

/-- What a purge promises after a run: nothing that lists the tag is served from then on, nothing else goes, and the number is that
of the responses that went. -/
structure PurgeComplete (calls : List Timed) (now : Nat) (tag : Str) : Prop where
  gone : ∀ pre c mid post key entry later hit, calls = pre ++ c :: mid → c.call.Brings (Lists tag) →
    StoredBy key entry pre c (mid ++ ⟨now, .purgeTag tag⟩ :: post) → now ≤ later →
    (lookup later key (run step .new (calls ++ ⟨now, .purgeTag tag⟩ :: post))).1 ≠ .ok (some hit)
  only : ∀ key entry, (run step .new calls).visible key = some entry →
    ((run step .new calls).purgeTag tag).2.visible key ≠ some entry →
    ∃ pre c mid, calls = pre ++ c :: mid ∧ StoredBy key entry pre c mid ∧ c.call.Brings (Lists tag)
  count : ((run step .new calls).purgeTag tag).1 + ((run step .new calls).purgeTag tag).2.len =
    (run step .new calls).len

theorem mem_tags_of_storedBy {key tag : Str} {entry : Entry} {store : MemoryStore} {c : Timed} (h : storedBy key store c = some entry) :
    tag ∈ entry.tags ↔ c.call.Brings (ShowsTag tag) := by
  obtain ⟨config, order, status, headers, body, ttl, hc, -, -, rfl⟩ := storedBy_eq_some.mp h
  rw [hc]
  exact mem_parseTags

theorem Call.Brings.mono {P Q : HeaderMap → Prop} (h : ∀ headers, P headers → Q headers) {c : Call} (hc : c.Brings P) :
    c.Brings Q := by
  cases c with
  | maybeStore config order key status headers body => exact h headers hc
  | lookup key => exact hc
  | purgeTag tag => exact hc
  | clear => exact hc

theorem purgeTag_count (store : MemoryStore) (tag : Str) : (store.purgeTag tag).1 + (store.purgeTag tag).2.len = store.len := by
  unfold purgeTag len
  cases hp : store.poisoned with
  | true => simp [hp]
  | false =>
    have hle := weigh_retain_le (fun _ => 1) (fun _ e => !e.tags.any (· = tag)) store.inner.map
    rw [← Lib.OrdMap.length_entries_eq_weigh, ← Lib.OrdMap.length_entries_eq_weigh] at hle
    simp only [Bool.false_eq_true, ↓reduceIte, Inner.len]
    omega

/-- A purge keeps its promise exactly if every response that lists the tag, and could be served at that time, shows it on the line
that is read. -/
theorem purgeTag_complete_iff (calls : List Timed) (now : Nat) (tag : Str) :
    PurgeComplete calls now tag ↔ ∀ pre c mid key entry, calls = pre ++ c :: mid → StoredBy key entry pre c mid →
      Servable now entry → c.call.Brings (Lists tag) → c.call.Brings (ShowsTag tag) := by
  constructor
  · rintro h pre c mid key entry rfl hby hservable hlists
    by_contra hnot
    -- what does not show its tag is still there after the purge, and may be served at once
    have hkept : tag ∉ entry.tags := fun hmem => hnot ((mem_tags_of_storedBy hby.put).mp hmem)
    have hstays : StoredBy key entry pre c (mid ++ [⟨now, .purgeTag tag⟩]) := by
      refine ⟨hby.put, permits_append.mpr ⟨hby.kept, ⟨rfl, ?_⟩, trivial⟩⟩
      rintro (hrem | hpois)
      · exact hkept hrem
      · exact hpois
    have hvis := (visible_run_iff _).mpr ⟨pre, c, _, rfl, hstays⟩
    rw [← cons_append, ← append_assoc] at hvis
    exact h.gone pre c mid [] key entry now (hitOf now entry) rfl hlists hstays le_rfl
      (lookup_hit_iff.mpr ⟨entry, hvis, hservable, rfl⟩)
  · intro h
    refine ⟨?_, ?_, purgeTag_count _ _⟩
    · rintro pre c mid post key entry later hit rfl hlists hby hlater hhit
      obtain ⟨hbefore, hpurge, -⟩ := permits_append.mp hby.kept
      have hvis := (visible_run_iff _).mpr ⟨pre, c, _, rfl, hby⟩
      rw [← cons_append, ← append_assoc] at hvis
      obtain ⟨e, he, hservable, -⟩ := lookup_hit_iff.mp hhit
      cases hvis.symm.trans he
      have hshows := h pre c mid key entry rfl ⟨hby.put, hbefore⟩ (hservable.mono hlater) hlists
      exact hpurge.2 (.inl ((mem_tags_of_storedBy hby.put).mpr hshows))
    · intro key entry hvis hgone
      obtain ⟨pre, c, mid, heq, hby⟩ := (visible_run_iff calls).mp hvis
      refine ⟨pre, c, mid, heq, hby, ?_⟩
      cases hp : (run step .new calls).poisoned with
      | true =>
        rw [visible_of_poisoned hp] at hvis
        cases hvis
      | false =>
        have hmem : tag ∈ entry.tags := by
          by_contra hnot
          exact hgone ((visible_purgeTag hp).mpr ⟨hvis, hnot⟩)
        exact ((mem_tags_of_storedBy hby.put).mp hmem).mono (fun _ => ShowsTag.lists)

/-- Two lines of tags. -/
def twoTagLines : HeaderMap := [(cacheTag, ⟨Str.bytes "home", by decide⟩), (cacheTag, ⟨Str.bytes "products", by decide⟩)]

theorem twoTagLines_survives : Lists "products" twoTagLines ∧
    (lookup 2 "k" (run step .new
        [⟨0, .maybeStore smallConfig (.byKey _ _) "k" 200 twoTagLines [1]⟩, ⟨1, .purgeTag "products"⟩])).1 =
      .ok (some ⟨200, [("cache-tag", "home"), ("cache-tag", "products")], [1], 0, .fresh⟩) :=
  ⟨⟨_, mem_cons_of_mem _ mem_cons_self, by decide⟩, by decide⟩

end Pulsate.Cache
