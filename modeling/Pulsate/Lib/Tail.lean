import Mathlib.Data.List.Infix
import Mathlib.Order.Defs.Unbundled

/-!
# Following a log that grows

A follower copies the log from time to time, looks at the copy entry by entry and passes on those above its mark, which it
then moves up to the entry. What it passes on is, in order and once each, what the latest copy has above the first mark.
-/

namespace Pulsate.Lib

open List

variable {α κ : Type} [LT κ] [DecidableLT κ] (key : α → κ)

/-- The entry is above the mark. Everything is, where there is none. -/
def isNew (mark : Option κ) (a : α) : Bool := mark.all (fun m => decide (m < key a))

structure Tail (α κ : Type) where
  log : List α
  mark : Option κ
  /-- The latest copy, and the part of it that is still to be looked at. -/
  polled : List α
  pending : List α
  passed : List α

namespace Tail

/-- The first mark is the end of the log. -/
def begin (log : List α) : Tail α κ := ⟨log, log.getLast?.map key, [], [], []⟩

def grow (t : Tail α κ) (a : α) : Tail α κ := { t with log := t.log ++ [a] }

def poll (t : Tail α κ) : Tail α κ := { t with polled := t.log, pending := t.log }

/-- The first of the pending entries is not new, and the others remain. -/
def skip (t : Tail α κ) (rest : List α) : Tail α κ := { t with pending := rest }

/-- It is new, and is passed on. -/
def pass (t : Tail α κ) (a : α) (rest : List α) : Tail α κ :=
  { t with mark := some (key a), pending := rest, passed := t.passed ++ [a] }

/-! ## What is passed on -/

structure Inv (start : Option κ) (t : Tail α κ) : Prop where
  sorted : t.log.Pairwise (fun a b => key a < key b)
  present : t.polled <+: t.log
  looked : ∃ done, t.polled = done ++ t.pending ∧ ∀ a ∈ done, isNew key t.mark a = false
  mark : t.mark = start ∨ ∃ a ∈ t.polled, t.mark = some (key a) ∧ isNew key start a
  passed : t.passed ++ t.pending.filter (isNew key t.mark) = t.polled.filter (isNew key start)

variable {key} {start : Option κ} {t : Tail α κ}

theorem inv_begin {log : List α} (h : log.Pairwise (fun a b => key a < key b)) :
    Inv key (begin key log).mark (begin key log) :=
  ⟨h, nil_prefix, ⟨[], rfl, fun _ ha => absurd ha not_mem_nil⟩, .inl rfl, rfl⟩

theorem Inv.grow (h : Inv key start t) {a : α} (ha : ∀ b ∈ t.log, key b < key a) : Inv key start (t.grow a) := by
  refine ⟨pairwise_append.mpr ⟨h.sorted, pairwise_singleton _ _, fun b hb c hc => ?_⟩,
    h.present.trans (prefix_append _ _), h.looked, h.mark, h.passed⟩
  rw [mem_singleton.mp hc]
  exact ha b hb

theorem Inv.skip (h : Inv key start t) {a : α} {rest : List α} (hp : t.pending = a :: rest)
    (hnew : isNew key t.mark a = false) : Inv key start (t.skip rest) := by
  obtain ⟨done, hdone, hold⟩ := h.looked
  have hpassed := h.passed
  rw [hp, append_cons] at hdone
  rw [hp, filter_cons_of_neg (by rw [hnew]; decide)] at hpassed
  refine ⟨h.sorted, h.present, ⟨done ++ [a], hdone, fun b hb => ?_⟩, h.mark, hpassed⟩
  rcases mem_append.mp hb with hb | hb
  · exact hold b hb
  · rw [mem_singleton.mp hb]
    exact hnew

section Order

variable [IsStrictOrder κ (· < ·)]

theorem isNew_of_lt {mark : Option κ} {a b : α} (h : isNew key mark a) (hab : key a < key b) :
    isNew key mark b := by
  cases mark with
  | none => rfl
  | some m => exact decide_eq_true (trans_of (· < ·) (of_decide_eq_true h) hab)

theorem isNew_self (a : α) : isNew key (some (key a)) a = false :=
  decide_eq_false (irrefl_of (· < ·) (key a))

theorem isNew_up {mark : Option κ} {a b : α} (ha : isNew key mark a) (hb : isNew key mark b = false) :
    isNew key (some (key a)) b = false := by
  refine decide_eq_false (fun hab => ?_)
  rw [isNew_of_lt ha hab] at hb
  cases hb

theorem Inv.poll (h : Inv key start t) (hidle : t.pending = []) : Inv key start t.poll := by
  obtain ⟨rest, hrest⟩ := h.present
  obtain ⟨done, hdone, hold⟩ := h.looked
  have hpassed := h.passed
  have hsorted := h.sorted
  rw [hidle, append_nil] at hdone
  rw [hidle, filter_nil, append_nil] at hpassed
  -- what is past the old copy lies above either mark
  have hlater : ∀ b ∈ rest, isNew key t.mark b = isNew key start b := by
    intro b hb
    rcases h.mark with hmark | ⟨a, ha, hmark, hnew⟩
    · rw [hmark]
    · rw [← hrest] at hsorted
      have hab := (pairwise_append.mp hsorted).2.2 a ha b hb
      rw [hmark, isNew_of_lt hnew hab]
      exact decide_eq_true hab
  refine ⟨h.sorted, prefix_rfl, ⟨[], rfl, fun _ ha => absurd ha not_mem_nil⟩, ?_, ?_⟩
  · refine h.mark.imp_right (fun ⟨a, ha, hmark⟩ => ⟨a, h.present.subset ha, hmark⟩)
  · show t.passed ++ t.log.filter (isNew key t.mark) = t.log.filter (isNew key start)
    have hnone : t.polled.filter (isNew key t.mark) = [] := by
      rw [hdone, filter_eq_nil_iff]
      exact fun a ha hnew => Bool.false_ne_true ((hold a ha).symm.trans hnew)
    rw [hpassed, ← hrest, filter_append, filter_append, hnone, nil_append,
      filter_congr hlater]

theorem Inv.pass (h : Inv key start t) {a : α} {rest : List α} (hp : t.pending = a :: rest)
    (hnew : isNew key t.mark a) : Inv key start (t.pass key a rest) := by
  obtain ⟨done, hdone, hold⟩ := h.looked
  have hpassed := h.passed
  have hsorted : (a :: rest).Pairwise (fun a b => key a < key b) := by
    refine (h.sorted.sublist h.present.sublist).sublist ?_
    rw [hdone, hp]
    exact sublist_append_right _ _
  have hlater : ∀ b ∈ rest, isNew key t.mark b = isNew key (some (key a)) b := by
    intro b hb
    have hab := rel_of_pairwise_cons hsorted hb
    rw [isNew_of_lt hnew hab]
    exact (decide_eq_true hab).symm
  have hmem : a ∈ t.polled := by
    rw [hdone, hp]
    exact mem_append_right _ mem_cons_self
  rw [hp, append_cons] at hdone
  refine ⟨h.sorted, h.present, ⟨done ++ [a], hdone, fun b hb => ?_⟩, .inr ⟨a, hmem, rfl, ?_⟩, ?_⟩
  · rcases mem_append.mp hb with hb | hb
    · exact isNew_up hnew (hold b hb)
    · rw [mem_singleton.mp hb]
      exact isNew_self a
  · rcases h.mark with hmark | ⟨c, hc, hmark, hcnew⟩
    · rwa [hmark] at hnew
    · rw [hmark] at hnew
      exact isNew_of_lt hcnew (of_decide_eq_true hnew)
  · rw [hp, filter_cons_of_pos hnew, filter_congr hlater] at hpassed
    show (t.passed ++ [a]) ++ rest.filter (isNew key (some (key a))) = t.polled.filter (isNew key start)
    rw [append_assoc, singleton_append, hpassed]

end Order

end Tail

end Pulsate.Lib
