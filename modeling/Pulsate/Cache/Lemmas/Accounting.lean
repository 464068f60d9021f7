import Pulsate.Cache.Lemmas.Store

/-!
# The byte counter

The counter is kept by hand wherever an entry comes or goes. It is the sum of the bodies as long as that sum fits a machine
word.
-/

namespace Pulsate.Cache

open Http (HeaderMap)
open Lib (OrdMap Iteration Permits run)

/-- The sum of the body lengths. -/
def Inner.total (inner : Inner) : Nat := inner.map.weigh (·.body.length)

/-- The counter is right. -/
structure Accounted (inner : Inner) : Prop where
  exact : inner.bytes = inner.total
  fits : inner.total < 2 ^ 64

/-- The bytes of the entries with a tag. -/
def Inner.tagged (inner : Inner) (tag : Str) : Nat :=
  (inner.map.retain (fun _ e => e.tags.any (· = tag))).weigh (·.body.length)

/-- No subtraction from the counter, be it for one entry or for those with a tag, stops at zero. -/
structure Covered (inner : Inner) : Prop where
  entry : ∀ k e, inner.map.get? k = some e → e.body.length ≤ inner.bytes
  tag : ∀ tag, inner.tagged tag ≤ inner.bytes

/-- What arrives fits a machine word together with what is held. -/
def Fits (store : MemoryStore) (c : Timed) : Prop :=
  match c.call with
  | .maybeStore _ _ _ _ _ body => store.inner.total + body.length < 2 ^ 64
  | _ => True

instance decidableFits (store : MemoryStore) (c : Timed) : Decidable (Fits store c) :=
  match c with
  | ⟨_, .maybeStore _ _ _ _ _ body⟩ => inferInstanceAs (Decidable (store.inner.total + body.length < 2 ^ 64))
  | ⟨_, .lookup _⟩ => .isTrue trivial
  | ⟨_, .purgeTag _⟩ => .isTrue trivial
  | ⟨_, .clear⟩ => .isTrue trivial

variable {order : Iteration Str Entry} {inner : Inner} {store : MemoryStore} {key tag : Str} {config : CacheConfig}

theorem weigh_retain_le (f : Entry → Nat) (p : Str → Entry → Bool) (map : OrdMap Str Entry) :
    (map.retain p).weigh f ≤ map.weigh f := by
  rw [OrdMap.weigh_retain f p map]
  exact Nat.le_add_right _ _

theorem Accounted.covered (h : Accounted inner) : Covered inner := by
  constructor
  · intro k e he
    rw [h.exact]
    exact OrdMap.le_weigh (·.body.length) he
  · intro tag
    rw [h.exact]
    exact weigh_retain_le _ _ inner.map

theorem accounted_empty : Accounted .empty := ⟨rfl, by decide⟩

theorem Accounted.remove (h : Accounted inner) (key : Str) : Accounted (inner.remove key).2 := by
  cases hget : inner.map.get? key with
  | none =>
    rw [Inner.remove_of_none hget]
    exact h
  | some entry =>
    have hsum : inner.total = entry.body.length + (inner.map.erase key).weigh (·.body.length) :=
      OrdMap.weigh_erase _ hget
    have hexact := h.exact
    have hfits := h.fits
    rw [Inner.remove_of_some hget]
    constructor
    · show inner.bytes - entry.body.length = (inner.map.erase key).weigh (·.body.length)
      omega
    · show (inner.map.erase key).weigh (·.body.length) < 2 ^ 64
      omega

theorem usizeAdd_eq {a b : Nat} (h : a + b < 2 ^ 64) : usizeAdd a b = a + b := Nat.mod_eq_of_lt h

theorem foldl_usizeAdd (l : List Entry) (n : Nat) (h : n + (l.map (·.body.length)).sum < 2 ^ 64) :
    l.foldl (fun freed e => usizeAdd freed e.body.length) n = n + (l.map (·.body.length)).sum := by
  induction l generalizing n with
  | nil => rfl
  | cons e l ih =>
    rw [List.map_cons, List.sum_cons, ← Nat.add_assoc] at h ⊢
    have hhead : n + e.body.length < 2 ^ 64 := by omega
    rw [List.foldl_cons, usizeAdd_eq hhead]
    exact ih _ h

/-! ## One step -/

theorem Accounted.purgeTag (h : Accounted store.inner) (tag : Str) : Accounted (store.purgeTag tag).2.inner := by
  unfold MemoryStore.purgeTag
  split
  · exact h
  · have hsum := OrdMap.weigh_retain (·.body.length) (fun _ e => e.tags.any (· = tag)) store.inner.map
    have hexact := h.exact
    have hfits := h.fits
    unfold Inner.total at hexact hfits
    have hfreed := foldl_usizeAdd (store.inner.map.retain (fun _ e => e.tags.any (· = tag))).values 0 (by
      rw [Nat.zero_add]
      exact Nat.lt_of_le_of_lt (weigh_retain_le _ _ _) hfits)
    rw [Nat.zero_add] at hfreed
    constructor
    · show store.inner.bytes - _ = (store.inner.map.retain _).weigh (·.body.length)
      rw [hfreed]
      unfold OrdMap.weigh at hsum hexact ⊢
      omega
    · exact Nat.lt_of_le_of_lt (weigh_retain_le _ _ _) hfits

theorem Accounted.lookup (h : Accounted store.inner) (now : Nat) (key : Str) :
    Accounted (Cache.lookup now key store).2.inner := by
  rcases lookup_inner now key store with heq | heq
  · rw [heq]
    exact h
  · rw [heq]
    exact h.remove key

theorem Accounted.maybeStore {now status : Nat} {headers : HeaderMap} {body : List UInt8} (h : Accounted store.inner)
    (hfits : store.inner.total + body.length < 2 ^ 64) :
    Accounted (Cache.maybeStore config now order key status headers body store).2.inner := by
  by_cases hadm : ∃ ttl, Admitted config status headers body store ttl
  · obtain ⟨ttl, hadm⟩ := hadm
    have hroom : Accounted (makeRoom config order key body.length store.inner) :=
      makeRoom_induction (fun _ k hi => hi.remove k) h
    by_cases hin : HasRoom config order key body.length store.inner
    · rw [maybeStore_of_room hadm hin]
      have hle : (makeRoom config order key body.length store.inner).total ≤ store.inner.total := weigh_makeRoom_le _ _
      have hsum := OrdMap.weigh_insert (·.body.length) (v := entryOf config now status headers body ttl)
        (get?_makeRoom_self config order key body.length store.inner)
      have hbody : (entryOf config now status headers body ttl).body.length = body.length := rfl
      have hexact := hroom.exact
      unfold Inner.total at hexact hle hfits
      rw [hbody] at hsum
      constructor
      · show usizeAdd _ _ = OrdMap.weigh _ _
        rw [hsum, usizeAdd_eq (by omega)]
        omega
      · show OrdMap.weigh _ (OrdMap.insert _ _ _) < _
        rw [hsum]
        omega
    · rw [maybeStore_of_no_room hadm hin]
      exact hroom
  · rw [maybeStore_of_not_admitted (fun ttl hc => hadm ⟨ttl, hc⟩)]
    exact h

theorem Accounted.step {c : Timed} (h : Accounted store.inner) (hfits : Fits store c) :
    Accounted (store.step c).inner := by
  obtain ⟨now, call⟩ := c
  cases call with
  | maybeStore config order key status headers body => exact h.maybeStore hfits
  | lookup key => exact h.lookup now key
  | purgeTag tag => exact h.purgeTag tag
  | clear =>
    show Accounted store.clear.inner
    unfold MemoryStore.clear
    split
    · exact h
    · exact accounted_empty

/-! ## Room -/

theorem Eviction.last {incoming budget : Nat} {final : Inner} {evicted : List (Str × Entry)}
    (h : Eviction order incoming budget inner evicted final) {removed : Str × Entry}
    (hlast : evicted.getLast? = some removed) :
    ∃ before, budget < usizeAdd before.bytes incoming ∧ before.map.get? removed.1 = some removed.2 ∧
      final = (before.remove removed.1).2 ∧ (Accounted inner → Accounted before) := by
  induction h with
  | done => cases hlast
  | @turn inner final key e evicted hfull hold he hrest ih =>
    cases evicted with
    | nil =>
      obtain rfl : (key, e) = removed := by simpa using hlast
      cases hrest
      exact ⟨inner, hfull, he, rfl, id⟩
    | cons next evicted =>
      rw [List.getLast?_cons_cons] at hlast
      obtain ⟨before, hbefore, hget, hfinal, hacc⟩ := ih hlast
      exact ⟨before, hbefore, hget, hfinal, fun h => hacc (h.remove key)⟩

theorem Accounted.eq_empty (h : Accounted inner) (hnil : inner.map.entries = []) : inner = .empty := by
  obtain ⟨⟨entries, hsorted⟩, bytes⟩ := inner
  subst hnil
  cases h.exact
  rfl

theorem Accounted.evictUntilFits_eq_empty {incoming budget : Nat} (h : Accounted inner) (hfits : inner.total + incoming < 2 ^ 64)
    (hlarge : budget < incoming) : inner.evictUntilFits order incoming budget = .empty := by
  have hend := @Inner.evictOne_evictUntilFits order incoming budget inner
  have hacc : Accounted (inner.evictUntilFits order incoming budget) :=
    Inner.evictUntilFits_induction (fun _ k hi => hi.remove k) h
  have hle : (inner.evictUntilFits order incoming budget).total ≤ inner.total :=
    Inner.evictUntilFits_induction (P := fun i => i.total ≤ inner.total)
      (fun i k hi => (Inner.weigh_remove_le _ i k).trans hi) le_rfl
  rcases Inner.evictOne_eq_none hend with hin | hnil
  · rw [hacc.exact, usizeAdd_eq (by omega)] at hin
    omega
  · exact hacc.eq_empty hnil

theorem hasRoom_iff {body : List UInt8} (hacc : Accounted store.inner) (hfits : store.inner.total + body.length < 2 ^ 64) :
    HasRoom config order key body.length store.inner ↔
      (store.inner.remove key).2.len < config.maxEntries ∧ body.length ≤ config.maxTotalBytes := by
  refine and_congr_right (fun hlen => ?_)
  have hroom : Accounted (makeRoom config order key body.length store.inner) := makeRoom_induction (fun _ k hi => hi.remove k) hacc
  have hle : (makeRoom config order key body.length store.inner).total ≤ store.inner.total := weigh_makeRoom_le _ _
  have hsum : usizeAdd (makeRoom config order key body.length store.inner).bytes body.length =
      (makeRoom config order key body.length store.inner).total + body.length := by
    rw [hroom.exact]
    exact usizeAdd_eq (by omega)
  constructor
  · intro h
    omega
  · intro h
    have hend := @Inner.evictOne_evictUntilFits order body.length config.maxTotalBytes (store.inner.remove key).2
    rw [makeRoom, if_neg (not_le.mpr hlen)] at hroom ⊢
    rcases Inner.evictOne_eq_none hend with hin | hnil
    · exact hin
    · rw [hroom.eq_empty hnil, Inner.empty, usizeAdd, Nat.zero_add]
      exact (Nat.mod_le _ _).trans h

/-! ## Limits -/

/-- What the settings of a layer promise of a store. -/
structure Bounded (config : CacheConfig) (inner : Inner) : Prop where
  entries : inner.len ≤ config.maxEntries
  total : inner.bytes ≤ config.maxTotalBytes
  bodies : ∀ k e, inner.map.get? k = some e → e.body.length ≤ config.maxBodyBytes

/-- The call is made by a layer with these settings, or by none. -/
def Call.Uses (config : CacheConfig) : Call → Prop
  | .maybeStore config' _ _ _ _ _ => config' = config
  | _ => True

theorem bounded_empty (config : CacheConfig) : Bounded config .empty :=
  ⟨Nat.zero_le _, Nat.zero_le _, fun _ _ h => absurd h.symm (Option.some_ne_none _)⟩

theorem Bounded.remove (h : Bounded config inner) (key : Str) : Bounded config (inner.remove key).2 := by
  refine ⟨?_, (Inner.bytes_remove_le inner key).trans h.total, fun k e he => h.bodies k e ?_⟩
  · have hentries := h.entries
    rw [Inner.len_eq] at hentries ⊢
    exact (Inner.weigh_remove_le _ inner key).trans hentries
  · rw [Inner.get?_remove] at he
    split at he
    · cases he
    · exact he

theorem Bounded.purgeTag (h : Bounded config store.inner) (tag : Str) : Bounded config (store.purgeTag tag).2.inner := by
  unfold MemoryStore.purgeTag
  split
  · exact h
  · refine ⟨?_, (Nat.sub_le _ _).trans h.total, fun k e he => h.bodies k e ?_⟩
    · have hentries := h.entries
      rw [Inner.len_eq] at hentries ⊢
      exact (weigh_retain_le _ _ _).trans hentries
    · rw [OrdMap.get?_retain, Option.filter_eq_some_iff] at he
      exact he.1

theorem Bounded.maybeStore {now status : Nat} {headers : HeaderMap} {body : List UInt8} (h : Bounded config store.inner) :
    Bounded config (Cache.maybeStore config now order key status headers body store).2.inner := by
  by_cases hadm : ∃ ttl, Admitted config status headers body store ttl
  · obtain ⟨ttl, hadm⟩ := hadm
    have hroom : Bounded config (makeRoom config order key body.length store.inner) :=
      makeRoom_induction (fun _ k hi => hi.remove k) h
    by_cases hin : HasRoom config order key body.length store.inner
    · rw [maybeStore_of_room hadm hin]
      have hfresh := get?_makeRoom_self config order key body.length store.inner
      refine ⟨?_, hin.2, fun k e he => ?_⟩
      · have hle : (makeRoom config order key body.length store.inner).map.weigh (fun _ => 1) ≤
            (store.inner.remove key).2.map.weigh (fun _ => 1) := weigh_makeRoom_le_remove _ _
        have hlt := hin.1
        rw [Inner.len_eq] at hlt ⊢
        dsimp only
        rw [OrdMap.weigh_insert _ hfresh]
        omega
      · dsimp only at he
        rw [OrdMap.get?_insert] at he
        split at he
        · cases he
          exact hadm.small
        · exact hroom.bodies k e he
    · rw [maybeStore_of_no_room hadm hin]
      exact hroom
  · rw [maybeStore_of_not_admitted (fun ttl hc => hadm ⟨ttl, hc⟩)]
    exact h

theorem Bounded.step {c : Timed} (h : Bounded config store.inner) (huses : c.call.Uses config) :
    Bounded config (store.step c).inner := by
  obtain ⟨now, call⟩ := c
  cases call with
  | maybeStore config' order key status headers body =>
    cases huses
    exact h.maybeStore
  | lookup key =>
    show Bounded config (Cache.lookup now key store).2.inner
    rcases lookup_inner now key store with heq | heq
    · rw [heq]
      exact h
    · rw [heq]
      exact h.remove key
  | purgeTag tag => exact h.purgeTag tag
  | clear =>
    show Bounded config store.clear.inner
    unfold MemoryStore.clear
    split
    · exact h
    · exact bounded_empty config

end Pulsate.Cache
