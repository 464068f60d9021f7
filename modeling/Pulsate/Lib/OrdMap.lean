import Mathlib.Algebra.BigOperators.Group.Finset.Basic
import Mathlib.Algebra.GroupWithZero.Nat
import Mathlib.Data.List.Lex
import Mathlib.Data.List.Pairwise
import Mathlib.Data.List.Perm.Basic
import Mathlib.Data.List.Induction

/-!
# Finite maps with ordered keys

A map is its list of entries in strictly increasing key order, so two maps that answer every lookup
alike are equal (`OrdMap.ext_get?`) and an enumeration of the map is determined by its contents.
-/

namespace Pulsate.Lib

open List

/-- A finite map: its entries, strictly increasing in the key. -/
structure OrdMap (K V : Type) [LinearOrder K] where
  entries : List (K × V)
  sorted : entries.Pairwise (fun a b => a.1 < b.1)

/-- An order in which a hash map may be iterated: some arrangement of its entries. -/
structure Iteration (K V : Type) where
  arrange : List (K × V) → List (K × V)
  perm : ∀ l, (arrange l).Perm l

/-- In the order of the keys. -/
def Iteration.byKey (K V : Type) : Iteration K V := ⟨id, fun l => .refl l⟩

namespace OrdMap

variable {K V W : Type} [LinearOrder K]
variable {k k' : K} {v : V} {l : List (K × V)} {m : OrdMap K V}

def empty : OrdMap K V := ⟨[], List.Pairwise.nil⟩

instance : EmptyCollection (OrdMap K V) := ⟨empty⟩

instance [DecidableEq V] : DecidableEq (OrdMap K V) := fun m m' =>
  decidable_of_iff (m.entries = m'.entries) (by cases m; cases m'; simp)

def get? (m : OrdMap K V) (k : K) : Option V := m.entries.lookup k

def keys (m : OrdMap K V) : List K := m.entries.map Prod.fst

def values (m : OrdMap K V) : List V := m.entries.map Prod.snd

/-! ## Insertion -/

def insertList (k : K) (v : V) : List (K × V) → List (K × V)
  | [] => [(k, v)]
  | e :: es =>
    if k < e.1 then (k, v) :: e :: es
    else if k = e.1 then (k, v) :: es
    else e :: insertList k v es

theorem mem_insertList {e : K × V} (h : e ∈ insertList k v l) : e = (k, v) ∨ e ∈ l := by
  induction l with
  | nil => simpa [insertList] using h
  | cons a as ih =>
    simp only [insertList] at h
    split_ifs at h with h1 h2
    · rcases mem_cons.mp h with h | h
      · exact .inl h
      · exact .inr h
    · rcases mem_cons.mp h with h | h
      · exact .inl h
      · exact .inr (mem_cons_of_mem _ h)
    · rcases mem_cons.mp h with h | h
      · exact .inr (h ▸ mem_cons_self)
      · rcases ih h with h | h
        · exact .inl h
        · exact .inr (mem_cons_of_mem _ h)

theorem insertList_sorted (k : K) (v : V) (h : l.Pairwise (fun a b => a.1 < b.1)) :
    (insertList k v l).Pairwise (fun a b => a.1 < b.1) := by
  induction l with
  | nil => simp [insertList]
  | cons a as ih =>
    have hr := pairwise_cons.mp h
    simp only [insertList]
    split_ifs with h1 h2
    · refine pairwise_cons.mpr ⟨fun b hb => ?_, h⟩
      rcases mem_cons.mp hb with rfl | hb
      · exact h1
      · exact h1.trans (hr.1 b hb)
    · exact pairwise_cons.mpr ⟨fun b hb => h2 ▸ hr.1 b hb, hr.2⟩
    · refine pairwise_cons.mpr ⟨fun b hb => ?_, ih hr.2⟩
      rcases mem_insertList hb with rfl | hb
      · exact lt_of_le_of_ne (not_lt.mp h1) (Ne.symm h2)
      · exact hr.1 b hb

def insert (m : OrdMap K V) (k : K) (v : V) : OrdMap K V :=
  ⟨insertList k v m.entries, insertList_sorted k v m.sorted⟩

/-- The value under `k` replaced by `f` of the old one. -/
def alter (m : OrdMap K V) (k : K) (f : Option V → V) : OrdMap K V :=
  m.insert k (f (m.get? k))

/-- The entries of a list inserted one after another. -/
def insertAll (m : OrdMap K V) (l : List (K × V)) : OrdMap K V :=
  l.foldl (fun m e => m.insert e.1 e.2) m

def erase (m : OrdMap K V) (k : K) : OrdMap K V :=
  ⟨m.entries.filter (fun e => e.1 ≠ k), m.sorted.filter _⟩

/-- The entries that pass a test. -/
def retain (p : K → V → Bool) (m : OrdMap K V) : OrdMap K V :=
  ⟨m.entries.filter (fun e => p e.1 e.2), m.sorted.filter _⟩

/-- The sum of a weight over the values. -/
def weigh (f : V → ℕ) (m : OrdMap K V) : ℕ := (m.values.map f).sum

/-- The map with every value replaced by `f` of it. -/
def mapVal (f : V → W) (m : OrdMap K V) : OrdMap K W :=
  ⟨m.entries.map (fun e => (e.1, f e.2)), by
    rw [pairwise_map]; exact m.sorted⟩

/-- The map with every value replaced by `f` of its key and it. -/
def mapEntries (f : K → V → W) (m : OrdMap K V) : OrdMap K W :=
  ⟨m.entries.map (fun e => (e.1, f e.1 e.2)), by
    rw [pairwise_map]; exact m.sorted⟩

/-! ## Lookup -/

@[simp] theorem get?_emptyCollection (k : K) : (∅ : OrdMap K V).get? k = none := rfl

theorem lookup_cons_ite (k : K) (e : K × V) (es : List (K × V)) :
    (e :: es).lookup k = if k = e.1 then some e.2 else es.lookup k := by
  rw [lookup_cons]
  by_cases h : k = e.1
  · simp [h]
  · simp only [h, ↓reduceIte, beq_eq_false_iff_ne.mpr h]

theorem lookup_insertList_self (k : K) (v : V) (l : List (K × V)) :
    (insertList k v l).lookup k = some v := by
  induction l with
  | nil => simp [insertList]
  | cons a as ih =>
    simp only [insertList]
    split_ifs with h1 h2
    · simp
    · simp
    · simp only [lookup_cons_ite, h2, ↓reduceIte, ih]

theorem lookup_insertList_ne (v : V) (h : k' ≠ k) (l : List (K × V)) : (insertList k v l).lookup k' = l.lookup k' := by
  induction l with
  | nil => simp [insertList, lookup_cons_ite, h]
  | cons a as ih =>
    simp only [insertList]
    split_ifs with h1 h2
    · simp only [lookup_cons_ite, h, ↓reduceIte]
    · subst h2; simp only [lookup_cons_ite, h, ↓reduceIte]
    · simp only [lookup_cons_ite, ih]

theorem get?_insert (m : OrdMap K V) (k k' : K) (v : V) :
    (m.insert k v).get? k' = if k' = k then some v else m.get? k' := by
  split_ifs with h
  · subst h; exact lookup_insertList_self _ _ _
  · exact lookup_insertList_ne _ h _

@[simp] theorem get?_insert_self (m : OrdMap K V) (k : K) (v : V) :
    (m.insert k v).get? k = some v := lookup_insertList_self _ _ _

theorem get?_insert_ne (m : OrdMap K V) (v : V) (h : k' ≠ k) : (m.insert k v).get? k' = m.get? k' := lookup_insertList_ne _ h _

theorem get?_alter (m : OrdMap K V) (k k' : K) (f : Option V → V) :
    (m.alter k f).get? k' = if k' = k then some (f (m.get? k)) else m.get? k' :=
  get?_insert _ _ _ _

@[simp] theorem get?_mapVal (f : V → W) (m : OrdMap K V) (k : K) :
    (m.mapVal f).get? k = (m.get? k).map f := by
  obtain ⟨l, hl⟩ := m
  simp only [get?, mapVal]
  clear hl
  induction l with
  | nil => rfl
  | cons a as ih =>
    simp only [map_cons, lookup_cons_ite, ih]
    split_ifs <;> rfl

@[simp] theorem get?_mapEntries (f : K → V → W) (m : OrdMap K V) (k : K) :
    (m.mapEntries f).get? k = (m.get? k).map (f k) := by
  obtain ⟨l, hl⟩ := m
  simp only [get?, mapEntries]
  clear hl
  induction l with
  | nil => rfl
  | cons a as ih =>
    simp only [map_cons, lookup_cons_ite, ih]
    split_ifs with h
    · rw [h]; rfl
    · rfl

theorem mem_entries_iff : (k, v) ∈ m.entries ↔ m.get? k = some v := by
  obtain ⟨l, hl⟩ := m
  simp only [get?]
  induction l with
  | nil => simp
  | cons a as ih =>
    obtain ⟨k', v'⟩ := a
    have hr := pairwise_cons.mp hl
    simp only [mem_cons, Prod.mk.injEq, lookup_cons_ite]
    by_cases h : k = k'
    · subst h
      simp only [true_and, ↓reduceIte, Option.some.injEq]
      constructor
      · rintro (h | h)
        · exact h.symm
        · exact absurd (hr.1 _ h) (lt_irrefl _)
      · exact fun h => .inl h.symm
    · simp only [h, false_and, false_or, ↓reduceIte]
      exact ih hr.2

theorem mem_keys_iff : k ∈ m.keys ↔ ∃ v, m.get? k = some v := by
  simp only [keys, mem_map, Prod.exists, exists_and_right, exists_eq_right, mem_entries_iff]

theorem nodup_keys (m : OrdMap K V) : m.keys.Nodup := by
  rw [keys, List.Nodup, pairwise_map]
  exact m.sorted.imp (fun h => ne_of_lt h)

theorem nodup_entries (m : OrdMap K V) : m.entries.Nodup :=
  m.sorted.imp (fun hlt he => absurd (he ▸ hlt) (lt_irrefl _))

theorem keys_sorted (m : OrdMap K V) : m.keys.Pairwise (· < ·) := by
  rw [keys, pairwise_map]; exact m.sorted

/-! ## Taking out -/

theorem get?_retain (p : K → V → Bool) (m : OrdMap K V) (k : K) : (m.retain p).get? k = (m.get? k).filter (p k) := by
  apply Option.ext
  intro v
  rw [← mem_entries_iff, retain, mem_filter, mem_entries_iff, Option.filter_eq_some_iff]

theorem get?_erase (m : OrdMap K V) (k k' : K) : (m.erase k).get? k' = if k' = k then none else m.get? k' := by
  apply Option.ext
  intro v
  rw [← mem_entries_iff, erase, mem_filter, mem_entries_iff, decide_eq_true_eq]
  by_cases h : k' = k
  · rw [if_pos h]
    exact iff_of_false (fun hv => hv.2 h) (by simp)
  · rw [if_neg h]
    exact and_iff_left h

theorem get?_erase_self (m : OrdMap K V) (k : K) : (m.erase k).get? k = none := by
  rw [get?_erase, if_pos rfl]

theorem get?_erase_ne (m : OrdMap K V) (h : k' ≠ k) : (m.erase k).get? k' = m.get? k' := by
  rw [get?_erase, if_neg h]

/-! ## Weights -/

section Weigh

variable (f : V → ℕ)

theorem perm_insert (h : m.get? k = none) : (m.insert k v).entries.Perm ((k, v) :: m.entries) := by
  have hfresh : (k, v) ∉ m.entries := fun hmem => by
    rw [mem_entries_iff, h] at hmem
    cases hmem
  refine (perm_ext_iff_of_nodup (nodup_entries _) (nodup_cons.mpr ⟨hfresh, m.nodup_entries⟩)).mpr ?_
  rintro ⟨k', v'⟩
  rw [mem_entries_iff, get?_insert, mem_cons, mem_entries_iff, Prod.mk.injEq]
  by_cases hk : k' = k
  · rw [if_pos hk, hk, h, Option.some.injEq, eq_comm]
    simp
  · rw [if_neg hk]
    simp [hk]

theorem perm_erase (h : m.get? k = some v) : m.entries.Perm ((k, v) :: (m.erase k).entries) := by
  have hfresh : (k, v) ∉ (m.erase k).entries := fun hmem => by
    rw [mem_entries_iff, get?_erase_self] at hmem
    cases hmem
  refine (perm_ext_iff_of_nodup m.nodup_entries (nodup_cons.mpr ⟨hfresh, nodup_entries _⟩)).mpr ?_
  rintro ⟨k', v'⟩
  rw [mem_entries_iff, mem_cons, mem_entries_iff, get?_erase, Prod.mk.injEq]
  by_cases hk : k' = k
  · rw [if_pos hk, hk, h, Option.some.injEq, eq_comm]
    simp
  · rw [if_neg hk]
    simp [hk]

theorem weigh_eq (m : OrdMap K V) : m.weigh f = (m.entries.map (fun e => f e.2)).sum := by
  rw [weigh, values, map_map]
  rfl

theorem weigh_insert (h : m.get? k = none) : (m.insert k v).weigh f = f v + m.weigh f := by
  rw [weigh_eq, weigh_eq, ((perm_insert h).map _).sum_eq, map_cons, sum_cons]

theorem weigh_erase (h : m.get? k = some v) : m.weigh f = f v + (m.erase k).weigh f := by
  rw [weigh_eq, weigh_eq, ((perm_erase h).map _).sum_eq, map_cons, sum_cons]

theorem weigh_retain (p : K → V → Bool) (m : OrdMap K V) :
    m.weigh f = (m.retain p).weigh f + (m.retain (fun k v => !p k v)).weigh f := by
  rw [weigh_eq, weigh_eq, weigh_eq, ← sum_append, ← map_append]
  exact ((filter_append_perm _ _).map _).sum_eq.symm

theorem le_weigh (h : m.get? k = some v) : f v ≤ m.weigh f := by
  rw [weigh_erase f h]
  exact Nat.le_add_right _ _

theorem length_entries_eq_weigh (m : OrdMap K V) : m.entries.length = m.weigh (fun _ => 1) := by
  rw [weigh_eq, map_const', sum_replicate_nat, Nat.mul_one]

end Weigh

/-! ## Inserting lists -/

@[simp] theorem insertAll_nil (m : OrdMap K V) : m.insertAll [] = m := rfl

@[simp] theorem insertAll_cons (m : OrdMap K V) (e : K × V) (l : List (K × V)) :
    m.insertAll (e :: l) = (m.insert e.1 e.2).insertAll l := rfl

theorem insertAll_append (m : OrdMap K V) (l l' : List (K × V)) :
    m.insertAll (l ++ l') = (m.insertAll l).insertAll l' := foldl_append

theorem get?_insertAll (h : (m.insertAll l).get? k = some v) : (k, v) ∈ l ∨ m.get? k = some v := by
  induction l generalizing m with
  | nil => exact .inr h
  | cons e l ih =>
    rcases ih h with h | h
    · exact .inl (mem_cons_of_mem _ h)
    · rw [get?_insert] at h
      split_ifs at h with hk
      · left
        obtain ⟨a, b⟩ := e
        cases h; subst hk
        exact mem_cons_self
      · exact .inr h

theorem mem_of_mem_insertAll_empty {e : K × V} (h : e ∈ ((∅ : OrdMap K V).insertAll l).entries) : e ∈ l := by
  rcases get?_insertAll (mem_entries_iff.mp h) with h | h
  · exact h
  · cases h

theorem get?_insertAll_of_mem (h : (k, v) ∈ l) : ∃ v', (m.insertAll l).get? k = some v' := by
  induction l using List.reverseRecOn with
  | nil => cases h
  | append_singleton l e ih =>
    rw [insertAll_append]
    simp only [insertAll_cons, insertAll_nil, get?_insert]
    split_ifs with hk
    · exact ⟨_, rfl⟩
    · rcases mem_append.mp h with h | h
      · exact ih h
      · rw [mem_singleton] at h
        exact absurd (congrArg Prod.fst h) hk

theorem get?_insertAll_empty_iff (hl : ∀ e ∈ l, ∀ e' ∈ l, e.1 = e'.1 → e.2 = e'.2) :
    ((∅ : OrdMap K V).insertAll l).get? k = some v ↔ (k, v) ∈ l := by
  constructor
  · intro h
    rcases get?_insertAll h with h | h
    · exact h
    · cases h
  · intro h
    obtain ⟨v', hv'⟩ := get?_insertAll_of_mem (m := ∅) h
    rcases get?_insertAll hv' with h' | h'
    · rw [hv']
      exact congrArg some (hl _ h' _ h rfl)
    · cases h'

theorem get?_insertAll_empty [BEq K] [LawfulBEq K] (l : List (K × V)) (k : K) :
    ((∅ : OrdMap K V).insertAll l).get? k = l.reverse.lookup k := by
  induction l using List.reverseRecOn with
  | nil => rfl
  | append_singleton l e ih =>
    have hinsert : ((∅ : OrdMap K V).insertAll (l ++ [e])).get? k =
        if k = e.1 then some e.2 else ((∅ : OrdMap K V).insertAll l).get? k := by
      rw [insertAll_append]
      exact get?_insert _ _ _ _
    rw [hinsert, ih, reverse_concat, lookup_cons]
    by_cases hk : k = e.1
    · rw [if_pos hk, hk, beq_self_eq_true]
    · rw [if_neg hk, beq_false_of_ne hk]

theorem mem_keys_insertAll_empty : k ∈ ((∅ : OrdMap K V).insertAll l).keys ↔ ∃ v, (k, v) ∈ l := by
  rw [mem_keys_iff]
  constructor
  · rintro ⟨v, hv⟩
    rcases get?_insertAll hv with h | h
    · exact ⟨v, h⟩
    · cases h
  · rintro ⟨v, hv⟩
    exact get?_insertAll_of_mem hv

/-! ## Scans -/

omit [LinearOrder K] in
theorem foldl_match_of_ne [DecidableEq K] (h : ∀ e ∈ l, k ≠ e.1) (found : Option V) :
    l.foldl (fun found e => if k = e.1 then some e.2 else found) found = found := by
  induction l with
  | nil => rfl
  | cons e l ih =>
    rw [forall_mem_cons] at h
    rw [foldl_cons, if_neg h.1]
    exact ih h.2

theorem foldl_match [DecidableEq K] (m : OrdMap K V) (k : K) :
    m.entries.foldl (fun found e => if k = e.1 then some e.2 else found) none = m.get? k := by
  obtain ⟨l, hl⟩ := m
  unfold get?
  dsimp only
  induction l with
  | nil => rfl
  | cons e l ih =>
    rw [pairwise_cons] at hl
    rw [foldl_cons, lookup_cons_ite]
    split_ifs with hk
    · exact foldl_match_of_ne (fun e' he' => hk ▸ (hl.1 e' he').ne) _
    · exact ih hl.2

/-! ## Extensionality -/

theorem ext_mem {m' : OrdMap K V} (h : ∀ e, e ∈ m.entries ↔ e ∈ m'.entries) : m = m' := by
  have hp : m.entries.Perm m'.entries := (perm_ext_iff_of_nodup m.nodup_entries m'.nodup_entries).mpr h
  have he : m.entries = m'.entries := by
    refine List.Perm.eq_of_pairwise ?_ m.sorted m'.sorted hp
    intro a b _ _ hab hba
    exact absurd (hab.trans hba) (lt_irrefl _)
  cases m; cases m'; simpa using he

theorem ext_get? {m' : OrdMap K V} (h : ∀ k, m.get? k = m'.get? k) : m = m' :=
  ext_mem (fun (k, v) => by rw [mem_entries_iff, mem_entries_iff, h])

theorem length_insert {v' : V} (h : m.get? k = some v) : (m.insert k v').entries.length = m.entries.length := by
  have heq : m.insert k v' = (m.erase k).insert k v' := by
    refine ext_get? (fun k' => ?_)
    rw [get?_insert, get?_insert, get?_erase]
    split <;> rfl
  rw [heq, (perm_insert (get?_erase_self m k)).length_eq, (perm_erase h).length_eq]
  rfl

theorem insert_eq_self_iff : m.insert k v = m ↔ m.get? k = some v := by
  constructor
  · intro h
    rw [← h, get?_insert_self]
  · intro h
    refine ext_get? (fun k' => ?_)
    rw [get?_insert]
    split
    · next heq => rw [heq, h]
    · rfl

theorem insertAll_empty_congr {l' : List (K × V)} (hl : ∀ e ∈ l, ∀ e' ∈ l, e.1 = e'.1 → e.2 = e'.2) (h : ∀ e, e ∈ l ↔ e ∈ l') :
    (∅ : OrdMap K V).insertAll l = (∅ : OrdMap K V).insertAll l' := by
  have hl' : ∀ e ∈ l', ∀ e' ∈ l', e.1 = e'.1 → e.2 = e'.2 := fun e he e' he' =>
    hl e ((h e).mpr he) e' ((h e').mpr he')
  apply ext_get?
  intro k
  apply Option.ext
  intro v
  rw [get?_insertAll_empty_iff hl, get?_insertAll_empty_iff hl', h]

@[simp] theorem keys_mapEntries (f : K → V → W) (m : OrdMap K V) : (m.mapEntries f).keys = m.keys := by
  rw [keys, keys, mapEntries, map_map]
  rfl

@[simp] theorem mapEntries_empty (f : K → V → W) : (∅ : OrdMap K V).mapEntries f = ∅ := rfl

theorem mapEntries_insert (f : K → V → W) (m : OrdMap K V) (k : K) (v : V) :
    (m.insert k v).mapEntries f = (m.mapEntries f).insert k (f k v) := by
  apply ext_get?
  intro k'
  simp only [get?_mapEntries, get?_insert]
  split_ifs with h
  · subst h; rfl
  · rfl

theorem mapEntries_insertAll (f : K → V → W) (m : OrdMap K V) (l : List (K × V)) :
    (m.insertAll l).mapEntries f = (m.mapEntries f).insertAll (l.map (fun e => (e.1, f e.1 e.2))) := by
  induction l generalizing m with
  | nil => rfl
  | cons e l ih => rw [insertAll_cons, ih, mapEntries_insert, map_cons, insertAll_cons]

theorem values_mapEntries (f : K → V → W) (m : OrdMap K V) :
    (m.mapEntries f).values = m.entries.map (fun e => f e.1 e.2) := by
  simp [values, mapEntries]

/-! ## Sums -/

theorem lookup_eq_none_of_ne (h : ∀ e ∈ l, k ≠ e.1) : l.lookup k = none := by
  induction l with
  | nil => rfl
  | cons e l ih =>
    rw [forall_mem_cons] at h
    rw [lookup_cons_ite, if_neg h.1, ih h.2]

theorem sum_insertList (k : K) (v : ℕ) {l : List (K × ℕ)} (h : l.Pairwise (fun a b => a.1 < b.1)) :
    ((insertList k v l).map Prod.snd).sum + (l.lookup k).getD 0 = (l.map Prod.snd).sum + v := by
  induction l with
  | nil => simp [insertList]
  | cons e l ih =>
    obtain ⟨hlt, hl⟩ := pairwise_cons.mp h
    rw [insertList]
    split_ifs with h1 h2
    · have hnone : (e :: l).lookup k = none := by
        refine lookup_eq_none_of_ne (fun e' he' => ?_)
        rcases mem_cons.mp he' with rfl | he'
        · exact h1.ne
        · exact (h1.trans (hlt e' he')).ne
      rw [hnone, map_cons, sum_cons, Option.getD_none]
      omega
    · rw [lookup_cons_ite, if_pos h2, map_cons, sum_cons, map_cons, sum_cons, Option.getD_some]
      omega
    · rw [lookup_cons_ite, if_neg h2, map_cons, sum_cons, map_cons, sum_cons]
      have := ih hl
      omega

theorem sum_values_alter (m : OrdMap K ℕ) (k : K) (f : Option ℕ → ℕ) :
    (m.alter k f).values.sum + (m.get? k).getD 0 = m.values.sum + f (m.get? k) :=
  sum_insertList k (f (m.get? k)) m.sorted

theorem sum_values (m : OrdMap K ℕ) {S : Finset K} (hS : ∀ k ∈ m.keys, k ∈ S) :
    m.values.sum = ∑ k ∈ S, (m.get? k).getD 0 := by
  have hvalues : m.values = m.keys.map (fun k => (m.get? k).getD 0) := by
    rw [values, keys, map_map]
    refine map_congr_left (fun e he => ?_)
    rw [Function.comp_apply, mem_entries_iff.mp he, Option.getD_some]
  rw [hvalues, ← sum_toFinset _ m.nodup_keys]
  refine Finset.sum_subset (fun k hk => hS k (mem_toFinset.mp hk)) (fun k _ hk => ?_)
  cases hget : m.get? k with
  | none => rfl
  | some v => exact absurd (mem_toFinset.mpr (mem_keys_iff.mpr ⟨v, hget⟩)) hk

end OrdMap

end Pulsate.Lib
