import Mathlib.Data.List.Induction
import Mathlib.Order.Nat

/-!
# The last of the greatest

`maxByKey` picks, among the elements of a list with the greatest key, the one that comes last.
-/

namespace Pulsate.Lib

open List Option

variable {α : Type} (key : α → Nat)

def maxByKey (l : List α) : Option α :=
  l.foldl (fun best x =>
    match best with
    | some b => if key b ≤ key x then some x else some b
    | none => some x) none

variable {key}

theorem maxByKey_append_singleton (l : List α) (x : α) :
    maxByKey key (l ++ [x]) =
      match maxByKey key l with
      | some b => if key b ≤ key x then some x else some b
      | none => some x := by
  simp only [maxByKey, foldl_append, foldl_cons, foldl_nil]

theorem maxByKey_eq_none {l : List α} : maxByKey key l = none ↔ l = [] := by
  constructor
  · intro h
    cases l using List.reverseRecOn with
    | nil => rfl
    | append_singleton l x =>
      rw [maxByKey_append_singleton] at h
      split at h
      · split at h <;> cases h
      · cases h
  · rintro rfl; rfl

/-- The element picked splits the list: nothing before it has a greater key, all after it smaller ones. -/
theorem maxByKey_eq_some {l : List α} {x : α} (h : maxByKey key l = some x) :
    ∃ pre post, l = pre ++ x :: post ∧ (∀ y ∈ pre, key y ≤ key x) ∧ ∀ y ∈ post, key y < key x := by
  induction l using List.reverseRecOn generalizing x with
  | nil => cases h
  | append_singleton l y ih =>
    rw [maxByKey_append_singleton] at h
    split at h
    · rename_i b hb
      obtain ⟨pre, post, rfl, hpre, hpost⟩ := ih hb
      split at h
      · rename_i hle
        cases h
        refine ⟨pre ++ b :: post, [], rfl, ?_, by simp⟩
        intro z hz
        simp only [mem_append, mem_cons] at hz
        rcases hz with hz | rfl | hz
        · exact (hpre z hz).trans hle
        · exact hle
        · exact (hpost z hz).le.trans hle
      · rename_i hlt
        cases h
        refine ⟨pre, post ++ [y], by simp, hpre, ?_⟩
        intro z hz
        rcases mem_append.mp hz with hz | hz
        · exact hpost z hz
        · obtain rfl := mem_singleton.mp hz
          omega
    · rename_i hb
      cases h
      obtain rfl := maxByKey_eq_none.mp hb
      exact ⟨[], [], rfl, by simp, by simp⟩

theorem maxByKey_mem {l : List α} {x : α} (h : maxByKey key l = some x) : x ∈ l := by
  obtain ⟨pre, post, rfl, _⟩ := maxByKey_eq_some h
  simp

theorem maxByKey_max {l : List α} {x : α} (h : maxByKey key l = some x) :
    ∀ y ∈ l, key y ≤ key x := by
  obtain ⟨pre, post, rfl, hpre, hpost⟩ := maxByKey_eq_some h
  intro y hy
  simp only [mem_append, mem_cons] at hy
  rcases hy with hy | rfl | hy
  · exact hpre y hy
  · exact le_rfl
  · exact (hpost y hy).le

theorem maxByKey_map {β : Type} (g : β → α) (l : List β) : maxByKey key (l.map g) = (maxByKey (key ∘ g) l).map g := by
  induction l using List.reverseRecOn with
  | nil => rfl
  | append_singleton l x ih =>
    rw [map_append, map_singleton, maxByKey_append_singleton, maxByKey_append_singleton, ih]
    cases maxByKey (key ∘ g) l with
    | none => rfl
    | some b =>
      simp only [map_some, Function.comp_apply]
      split <;> rfl

/-! ## The best of a list -/

section Best

variable (f : α → Option Nat)

/-- The last of the elements with the greatest score; those without a score do not count. -/
def best (l : List α) : Option α :=
  (maxByKey Prod.fst (l.filterMap (fun x => (f x).map (fun sc => (sc, x))))).map (·.2)

/-- One of the elements with the greatest score. -/
def IsBest (l : List α) (x : α) : Prop :=
  x ∈ l ∧ ∃ sc, f x = some sc ∧ ∀ y ∈ l, ∀ sc', f y = some sc' → sc' ≤ sc

variable {f} {l l' : List α} {x : α}

theorem mem_scored {e : Nat × α} :
    e ∈ l.filterMap (fun x => (f x).map (fun sc => (sc, x))) ↔ e.2 ∈ l ∧ f e.2 = some e.1 := by
  rw [mem_filterMap]
  constructor
  · rintro ⟨y, hy, he⟩
    obtain ⟨sc, hsc, rfl⟩ := map_eq_some_iff.mp he
    exact ⟨hy, hsc⟩
  · rintro ⟨hmem, hsc⟩
    exact ⟨e.2, hmem, by rw [hsc]; rfl⟩

theorem best_map {β : Type} (g : β → α) (l : List β) : best f (l.map g) = (best (f ∘ g) l).map g := by
  have hscored : (l.map g).filterMap (fun x => (f x).map (fun sc => (sc, x))) =
      (l.filterMap (fun y => (f (g y)).map (fun sc => (sc, y)))).map (fun e => (e.1, g e.2)) := by
    rw [filterMap_map, map_filterMap]
    refine congrArg (fun h => l.filterMap h) (funext (fun y => ?_))
    simp only [Function.comp_apply, Option.map_map]
    rfl
  rw [best, hscored, maxByKey_map, Option.map_map, best, Option.map_map]
  rfl

theorem best_eq_none : best f l = none ↔ ∀ x ∈ l, f x = none := by
  simp only [best, map_eq_none_iff, maxByKey_eq_none, filterMap_eq_nil_iff]

theorem isBest_of_best (h : best f l = some x) : IsBest f l x := by
  obtain ⟨e, he, rfl⟩ := map_eq_some_iff.mp h
  obtain ⟨hmem, hsc⟩ := mem_scored.mp (maxByKey_mem he)
  exact ⟨hmem, e.1, hsc, fun y hy sc' hy' => maxByKey_max he (sc', y) (mem_scored.mpr ⟨hy, hy'⟩)⟩

/-- An element with the only greatest score is picked. -/
theorem best_of_lt {pre post : List α} {sc : Nat} (hl : l = pre ++ x :: post) (hx : f x = some sc)
    (hmax : ∀ y ∈ pre ++ post, ∀ sc', f y = some sc' → sc' < sc) : best f l = some x := by
  have hmem : x ∈ l := by
    rw [hl]
    exact mem_append_right _ mem_cons_self
  cases hbest : best f l with
  | none => cases hx.symm.trans (best_eq_none.mp hbest x hmem)
  | some y =>
    obtain ⟨hy, sc', hsc', hle⟩ := isBest_of_best hbest
    by_cases hother : y ∈ pre ++ post
    · exact absurd (hle x hmem sc hx) (Nat.not_le.mpr (hmax y hother sc' hsc'))
    · rw [hl] at hy
      simp only [mem_append, mem_cons, not_or] at hy hother
      rcases hy with hy | rfl | hy
      · exact absurd hy hother.1
      · rfl
      · exact absurd hy hother.2

theorem IsBest.perm (h : IsBest f l x) (hp : l.Perm l') : IsBest f l' x := by
  obtain ⟨hmem, sc, hsc, hmax⟩ := h
  exact ⟨hp.mem_iff.mp hmem, sc, hsc, fun y hy => hmax y (hp.mem_iff.mpr hy)⟩

theorem best_concat (h : IsBest f (l ++ [x]) x) : best f (l ++ [x]) = some x := by
  obtain ⟨-, sc, hsc, hmax⟩ := h
  have hlast : (l ++ [x]).filterMap (fun x => (f x).map (fun sc => (sc, x))) =
      l.filterMap (fun x => (f x).map (fun sc => (sc, x))) ++ [(sc, x)] := by
    rw [filterMap_append, filterMap_cons, hsc]
    rfl
  rw [best, hlast, maxByKey_append_singleton]
  split
  · rename_i e he
    obtain ⟨hmem, hsc'⟩ := mem_scored.mp (maxByKey_mem he)
    rw [if_pos (hmax e.2 (mem_append_left _ hmem) e.1 hsc')]
    rfl
  · rfl

theorem IsBest.exists_perm (h : IsBest f l x) : ∃ l', l'.Perm l ∧ best f l' = some x := by
  obtain ⟨pre, post, rfl⟩ := append_of_mem h.1
  have hp : (pre ++ x :: post).Perm ((pre ++ post) ++ [x]) :=
    perm_middle.trans (perm_append_singleton x (pre ++ post)).symm
  exact ⟨(pre ++ post) ++ [x], hp.symm, best_concat (h.perm hp)⟩

end Best

end Pulsate.Lib
