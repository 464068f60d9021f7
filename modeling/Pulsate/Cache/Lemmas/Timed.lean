import Pulsate.Cache.Lemmas.Store

/-!
# The entries follow the history

Each call treats the entry under a key as `storedBy` and `Removes` say.
-/

namespace Pulsate.Cache

open List MemoryStore
open Http (HeaderMap)
open Lib (OrdMap Iteration IsSlot Permits run)

variable {order : Iteration Str Entry} {config : CacheConfig} {store : MemoryStore} {key k : Str} {entry : Entry} {now : Nat}

/-! ## A poisoned store -/

theorem step_of_poisoned (h : store.poisoned) (c : Timed) : store.step c = store := by
  obtain ⟨now, call⟩ := c
  cases call with
  | maybeStore config order key status headers body =>
    show (maybeStore config now order key status headers body store).2 = store
    rw [maybeStore_of_not_admitted]
    intro ttl hadm
    rw [hadm.healthy] at h
    cases h
  | lookup key =>
    show (lookup now key store).2 = store
    rw [lookup, if_pos h]
  | purgeTag tag =>
    show (store.purgeTag tag).2 = store
    rw [purgeTag, if_pos h]
  | clear =>
    show store.clear = store
    rw [clear, if_pos h]

theorem storedBy_of_poisoned (h : store.poisoned) (c : Timed) : storedBy key store c = none := by
  obtain ⟨now, call⟩ := c
  cases call with
  | maybeStore config order k status headers body =>
    refine if_neg (fun hstored => ?_)
    obtain ⟨⟨ttl, hadm⟩, -⟩ := maybeStore_fst.mp hstored.2
    rw [hadm.healthy] at h
    cases h
  | _ => rfl

/-! ## One call, one key -/

theorem visible_of_healthy (h : store.poisoned = false) : store.visible key = store.inner.map.get? key := by
  rw [visible, h]
  rfl

theorem visible_of_poisoned (h : store.poisoned) : store.visible key = none := if_pos h

theorem get?_makeRoom_iff {size : Nat} {inner : Inner} (hk : key ≠ k) :
    (makeRoom config order k size inner).map.get? key = some entry ↔
      inner.map.get? key = some entry ∧ ¬ Evicts config order k size inner key := by
  by_cases hlen : config.maxEntries ≤ (inner.remove k).2.len
  · have hnot : ¬ Evicts config order k size inner key := fun h => absurd h.1 (Nat.not_lt.mpr hlen)
    rw [makeRoom, if_pos hlen, Inner.get?_remove, if_neg hk, and_iff_left hnot]
  · constructor
    · intro h
      refine ⟨get?_of_makeRoom h, fun hev => ?_⟩
      rw [makeRoom, if_neg hlen, hev.2] at h
      cases h
    · rintro ⟨h, hkept⟩
      cases hroom : (makeRoom config order k size inner).map.get? key with
      | none =>
        rw [makeRoom, if_neg hlen] at hroom
        exact absurd ⟨Nat.not_le.mp hlen, hroom⟩ hkept
      | some e => exact (get?_of_makeRoom hroom).symm.trans h

section Step

variable {status : Nat} {headers : HeaderMap} {body : List UInt8}

theorem visible_maybeStore (hp : store.poisoned = false) (c : Timed)
    (hc : c = ⟨now, .maybeStore config order k status headers body⟩) :
    (store.step c).visible key = some entry ↔
      storedBy key store c = some entry ∨
        storedBy key store c = none ∧ store.visible key = some entry ∧ ¬ Removes key entry store c := by
  subst hc
  rw [visible_of_healthy hp]
  show (maybeStore config now order k status headers body store).2.visible key = _ ↔ (if _ then _ else _) = _ ∨
    (if _ then _ else _) = _ ∧ _ ∧ ¬ ((∃ ttl, Admitted config status headers body store ttl) ∧ _)
  by_cases hadm : ∃ ttl, Admitted config status headers body store ttl
  · simp only [hadm, true_and]
    obtain ⟨ttl, hadm⟩ := hadm
    by_cases hroom : HasRoom config order k body.length store.inner
    · rw [maybeStore_of_room hadm hroom, hadm.cacheable]
      simp only [visible, hp, Bool.false_eq_true, ↓reduceIte, and_true]
      by_cases hk : key = k
      · subst hk
        simp
      · simp only [OrdMap.get?_insert_ne _ _ hk, get?_makeRoom_iff hk, Ne.symm hk, ↓reduceIte, reduceCtorEq, false_or,
          true_and]
    · rw [maybeStore_of_no_room hadm hroom]
      simp only [visible, hp, Bool.false_eq_true, and_false, ↓reduceIte, reduceCtorEq, false_or, true_and]
      by_cases hk : key = k
      · subst hk
        rw [get?_makeRoom_self]
        simp
      · simp only [get?_makeRoom_iff hk, Ne.symm hk, false_or]
  · rw [maybeStore_of_not_admitted (fun ttl h => hadm ⟨ttl, h⟩), visible_of_healthy hp]
    simp [hadm]

end Step

theorem visible_lookup (hp : store.poisoned = false) :
    (lookup now k store).2.visible key = some entry ↔ store.visible key = some entry ∧
      ¬ (Removes key entry store ⟨now, .lookup k⟩ ∨ Poisons store ⟨now, .lookup k⟩) := by
  have hlooks := looks now k store
  generalize lookup now k store = r at hlooks ⊢
  rw [visible_of_healthy hp]
  cases hlooks with
  | locked h => cases hp.symm.trans h
  | missed _ hget =>
    rw [visible_of_healthy hp]
    refine (and_iff_left_of_imp ?_).symm
    rintro hkey (⟨rfl, -⟩ | ⟨-, e, he, -⟩)
    · cases hget.symm.trans hkey
    · cases hget.symm.trans he
  | served _ hget hyoung =>
    rw [visible_of_healthy hp]
    refine (and_iff_left_of_imp ?_).symm
    rintro hkey (⟨rfl, hold⟩ | ⟨-, e', he', hage, hover⟩)
    · cases hget.symm.trans hkey
      rcases hyoung with h | ⟨-, h⟩ <;> dsimp only at hold <;> omega
    · cases hget.symm.trans he'
      rcases hyoung with h | ⟨h, -⟩ <;> dsimp only at hage <;> omega
  | expired _ hget hfits hold =>
    simp only [visible, hp, Bool.false_eq_true, ↓reduceIte, Inner.get?_remove]
    split
    · rename_i hk
      subst hk
      refine iff_of_false (by simp) (fun h => h.2 (.inl ⟨rfl, ?_⟩))
      cases hget.symm.trans h.1
      exact hold
    · rename_i hk
      refine (and_iff_left_of_imp ?_).symm
      rintro - (⟨hk', -⟩ | ⟨-, e', he', -, hover⟩)
      · exact hk hk'.symm
      · cases hget.symm.trans he'
        omega
  | overflowed _ hget hage hover =>
    rw [visible_of_poisoned rfl]
    exact iff_of_false (by simp) (fun h => h.2 (.inr ⟨hp, _, hget, hage, hover⟩))

theorem visible_purgeTag {tag : Str} (hp : store.poisoned = false) :
    (store.purgeTag tag).2.visible key = some entry ↔ store.visible key = some entry ∧ tag ∉ entry.tags := by
  have hany : (!entry.tags.any (· = tag)) ↔ tag ∉ entry.tags := by
    rw [Bool.not_eq_true', ← Bool.not_eq_true, any_eq_true]
    simp
  rw [visible_of_healthy hp, purgeTag, hp]
  simp only [visible, Bool.false_eq_true, ↓reduceIte, OrdMap.get?_retain, Option.filter_eq_some_iff, hany]

theorem isSlot_visible (key : Str) : IsSlot step (fun store => store.visible key) (storedBy key)
    (fun store c e => Removes key e store c ∨ Poisons store c) := by
  constructor
  intro store c entry
  cases hp : store.poisoned with
  | true =>
    rw [step_of_poisoned hp, visible_of_poisoned hp, storedBy_of_poisoned hp]
    simp
  | false =>
    obtain ⟨now, call⟩ := c
    cases call with
    | maybeStore config order k status headers body =>
      have hnot : ¬ Poisons store ⟨now, .maybeStore config order k status headers body⟩ := id
      simp only [hnot, or_false]
      exact visible_maybeStore hp _ rfl
    | lookup k =>
      refine (visible_lookup hp).trans ?_
      simp [storedBy]
    | purgeTag tag =>
      refine (visible_purgeTag hp).trans ?_
      simp [storedBy, Removes, Poisons]
    | clear =>
      have hclear : (store.step ⟨now, .clear⟩).visible key = none := by
        show store.clear.visible key = none
        simp [clear, visible, hp, Inner.empty]
      rw [hclear]
      simp [storedBy, Removes]

/-! ## Runs -/

theorem visible_run_iff (calls : List Timed) : (run step .new calls).visible key = some entry ↔
    ∃ pre c post, calls = pre ++ c :: post ∧ StoredBy key entry pre c post :=
  (isSlot_visible key).run_iff rfl calls

theorem storedBy_eq_some {c : Timed} : storedBy key store c = some entry ↔
    ∃ config order status headers body ttl, c.call = .maybeStore config order key status headers body ∧
      (maybeStore config c.now order key status headers body store).1 ∧
      config.cacheableTtl status headers = some ttl ∧ entry = entryOf config c.now status headers body ttl := by
  obtain ⟨now, call⟩ := c
  constructor
  · intro h
    cases call with
    | maybeStore config order k status headers body =>
      obtain ⟨⟨rfl, hstored⟩, hentry⟩ := Option.ite_none_right_eq_some.mp h
      obtain ⟨ttl, httl, rfl⟩ := Option.map_eq_some_iff.mp hentry
      exact ⟨config, order, status, headers, body, ttl, rfl, hstored, httl, rfl⟩
    | lookup k => cases h
    | purgeTag tag => cases h
    | clear => cases h
  · rintro ⟨config, order, status, headers, body, ttl, rfl, hstored, httl, rfl⟩
    exact Option.ite_none_right_eq_some.mpr ⟨⟨rfl, hstored⟩, by rw [httl]; rfl⟩

theorem removes_of_storedBy {c : Timed} {e : Entry} (h : storedBy key store c = some e) : Removes key entry store c := by
  obtain ⟨config, order, status, headers, body, ttl, hc, hstored, -, -⟩ := storedBy_eq_some.mp h
  rw [Removes, hc]
  exact ⟨(maybeStore_fst.mp hstored).1, .inl rfl⟩

theorem poisons_of_step {c : Timed} (hp : store.poisoned = false) (h : (store.step c).poisoned) : Poisons store c := by
  obtain ⟨now, call⟩ := c
  cases call with
  | maybeStore config order k status headers body =>
    have hkeeps : (maybeStore config now order k status headers body store).2.poisoned = store.poisoned := by
      by_cases hadm : ∃ ttl, Admitted config status headers body store ttl
      · obtain ⟨ttl, hadm⟩ := hadm
        by_cases hroom : HasRoom config order k body.length store.inner
        · rw [maybeStore_of_room hadm hroom]
        · rw [maybeStore_of_no_room hadm hroom]
      · rw [maybeStore_of_not_admitted (fun ttl h => hadm ⟨ttl, h⟩)]
    cases (hkeeps.trans hp).symm.trans h
  | lookup k =>
    have hlooks := looks now k store
    change (lookup now k store).2.poisoned at h
    generalize lookup now k store = r at hlooks h
    cases hlooks with
    | overflowed _ hget hage hover => exact ⟨hp, _, hget, hage, hover⟩
    | _ => cases hp.symm.trans h
  | purgeTag tag =>
    have hkeeps : (store.purgeTag tag).2.poisoned = store.poisoned := by
      unfold purgeTag
      split <;> rfl
    cases (hkeeps.trans hp).symm.trans h
  | clear =>
    have hkeeps : store.clear.poisoned = store.poisoned := by
      unfold clear
      split <;> rfl
    cases (hkeeps.trans hp).symm.trans h

section Fits

variable {calls : List Timed}

theorem fits_of_visible (hok : ∀ c ∈ calls, NoOverflow c) (h : (run step .new calls).visible key = some entry) :
    entry.ttl.nanos + entry.swr.nanos < 2 ^ 64 * 10 ^ 9 := by
  obtain ⟨pre, c, post, rfl, hby⟩ := (visible_run_iff calls).mp h
  obtain ⟨config, order, status, headers, body, ttl, hc, -, httl, rfl⟩ := storedBy_eq_some.mp hby.put
  have hfits := hok c (mem_append_right _ mem_cons_self)
  rw [NoOverflow, hc] at hfits
  exact hfits ttl httl

theorem healthy_run (hok : ∀ c ∈ calls, NoOverflow c) : (run step .new calls).poisoned = false := by
  induction calls using List.reverseRecOn with
  | nil => rfl
  | append_singleton calls c ih =>
    have hok' : ∀ c ∈ calls, NoOverflow c := fun c hc => hok c (mem_append_left _ hc)
    have hp := ih hok'
    rw [Lib.run_concat]
    by_contra hnot
    have hpoisons := poisons_of_step hp (Bool.not_eq_false _ ▸ hnot)
    obtain ⟨now, call⟩ := c
    cases call with
    | lookup k =>
      obtain ⟨-, e, he, -, hover⟩ := hpoisons
      have hfits := fits_of_visible hok' ((visible_of_healthy hp).trans he)
      omega
    | maybeStore config order k status headers body => exact hpoisons
    | purgeTag tag => exact hpoisons
    | clear => exact hpoisons

theorem not_poisons_run {c : Timed} (hok : ∀ c ∈ calls, NoOverflow c) : ¬ Poisons (run step .new calls) c := by
  obtain ⟨now, call⟩ := c
  cases call with
  | lookup k =>
    rintro ⟨hp, e, he, -, hover⟩
    have hfits := fits_of_visible hok ((visible_of_healthy hp).trans he)
    omega
  | maybeStore config order k status headers body => exact id
  | purgeTag tag => exact id
  | clear => exact id

theorem storedBy_iff {pre post : List Timed} {c : Timed} (hok : ∀ c' ∈ pre ++ c :: post, NoOverflow c') :
    StoredBy key entry pre c post ↔ storedBy key (run step .new pre) c = some entry ∧
      Permits (fun store c => ¬ Removes key entry store c) step (run step .new (pre ++ [c])) post := by
  constructor
  · intro h
    exact ⟨h.put, h.kept.imp (fun _ _ _ _ hkept hrem => hkept.2 (.inl hrem))⟩
  · rintro ⟨hput, hkept⟩
    refine ⟨hput, hkept.imp (fun mid c' post' heq hstays => ⟨?_, ?_⟩)⟩
    · cases hst : storedBy key (run step (run step .new (pre ++ [c])) mid) c' with
      | none => rfl
      | some e => exact absurd (removes_of_storedBy hst) hstays
    · rintro (hrem | hpois)
      · exact hstays hrem
      · rw [Lib.run_split] at hpois
        refine not_poisons_run (fun c'' hc'' => hok c'' ?_) hpois
        rw [heq]
        simp only [mem_append, mem_cons] at hc'' ⊢
        tauto

end Fits

/-! ## Hits -/

theorem Servable.mono {later : Nat} {entry : Entry} (h : Servable later entry) (hle : now ≤ later) : Servable now entry :=
  h.imp (Nat.sub_le_sub_right hle _).trans (And.imp_right (Nat.sub_le_sub_right hle _).trans)

theorem lookup_hit_iff {hit : Hit} : (lookup now key store).1 = .ok (some hit) ↔
    ∃ e, store.visible key = some e ∧ Servable now e ∧ hit = hitOf now e := by
  have hlooks := looks now key store
  generalize lookup now key store = r at hlooks ⊢
  cases hlooks with
  | locked hp => simp [visible_of_poisoned hp]
  | missed hp hget => simp [visible_of_healthy hp, hget]
  | served hp hget hyoung => simp [visible_of_healthy hp, hget, hyoung, eq_comm]
  | expired hp hget _ hold =>
    rw [visible_of_healthy hp]
    refine iff_of_false (by simp) ?_
    rintro ⟨e, he, hyoung, -⟩
    cases hget.symm.trans he
    rcases hyoung with h | ⟨-, h⟩ <;> omega
  | overflowed hp hget hage hover =>
    rw [visible_of_healthy hp]
    refine iff_of_false (by simp) ?_
    rintro ⟨e, he, hyoung, -⟩
    cases hget.symm.trans he
    rcases hyoung with h | ⟨h, -⟩ <;> omega

/-! ## Moderate times -/

/-- The lock is fine, and no entry is served stale for longer. -/
structure Mild (longest : Nat) (store : MemoryStore) : Prop where
  healthy : store.poisoned = false
  entries : ∀ key entry, store.inner.map.get? key = some entry → entry.swr.nanos ≤ longest

theorem mild_new (longest : Nat) : Mild longest .new := ⟨rfl, fun _ _ h => absurd h.symm (Option.some_ne_none _)⟩

/-- A lookup adds the times of an entry only when the first of them has passed. -/
theorem Mild.lookup {longest : Nat} (h : Mild longest store) (hnow : now + longest < 2 ^ 64 * 10 ^ 9) (key : Str) :
    (∃ hit, (Cache.lookup now key store).1 = .ok hit) ∧ Mild longest (Cache.lookup now key store).2 := by
  have hlooks := looks now key store
  generalize Cache.lookup now key store = r at hlooks ⊢
  cases hlooks with
  | locked hp => exact ⟨⟨_, rfl⟩, h⟩
  | missed _ hget => exact ⟨⟨_, rfl⟩, h⟩
  | served _ hget hyoung => exact ⟨⟨_, rfl⟩, h⟩
  | expired =>
    refine ⟨⟨_, rfl⟩, h.healthy, fun k e he => ?_⟩
    rw [Inner.get?_remove] at he
    split at he
    · cases he
    · exact h.entries k e he
  | overflowed _ hget hage hover =>
    have hswr := h.entries key _ hget
    omega

theorem Mild.maybeStore {longest : Nat} (h : Mild longest store) (hswr : config.staleWhileRevalidate.nanos ≤ longest)
    (order : Iteration Str Entry) (key : Str) (status : Nat) (headers : HeaderMap) (body : List UInt8) :
    Mild longest (Cache.maybeStore config now order key status headers body store).2 := by
  by_cases hadm : ∃ ttl, Admitted config status headers body store ttl
  · obtain ⟨ttl, hadm⟩ := hadm
    by_cases hroom : HasRoom config order key body.length store.inner
    · rw [maybeStore_of_room hadm hroom]
      refine ⟨h.healthy, fun k e he => ?_⟩
      dsimp only at he
      rw [Lib.OrdMap.get?_insert] at he
      split at he
      · cases he
        exact hswr
      · exact h.entries k e (get?_of_makeRoom he)
    · rw [maybeStore_of_no_room hadm hroom]
      exact ⟨h.healthy, fun k e he => h.entries k e (get?_of_makeRoom he)⟩
  · rw [maybeStore_of_not_admitted (fun ttl hc => hadm ⟨ttl, hc⟩)]
    exact h

end Pulsate.Cache
