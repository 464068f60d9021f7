import Mathlib.Data.List.Forall2
import Mathlib.Data.List.Perm.Basic

/-!
# Lists related element by element
-/

namespace Pulsate.Lib

open List

variable {α β γ δ : Type}

/-! ## Folds and joins -/

theorem foldl_keeps {f : β → α → β} {g : β → γ} (h : ∀ b a, g (f b a) = g b) (l : List α) (b : β) :
    g (l.foldl f b) = g b := by
  induction l generalizing b with
  | nil => rfl
  | cons a l ih => rw [foldl_cons, ih, h]

theorem foldl_collects {f : β → α → β} {g : β → List γ} {h : α → List γ} (hstep : ∀ b a, g (f b a) = g b ++ h a)
    (l : List α) (b : β) : g (l.foldl f b) = g b ++ l.flatMap h := by
  induction l generalizing b with
  | nil => simp
  | cons a l ih => rw [foldl_cons, ih, hstep, flatMap_cons, append_assoc]

theorem foldl_through {f : β → α → β} {g : β → γ} {sel : α → List δ} {upd : γ → δ → γ}
    (hstep : ∀ b a, g (f b a) = (sel a).foldl upd (g b)) (l : List α) (b : β) :
    g (l.foldl f b) = (l.flatMap sel).foldl upd (g b) := by
  induction l generalizing b with
  | nil => rfl
  | cons a l ih => rw [foldl_cons, ih, hstep, flatMap_cons, foldl_append]

theorem append_flatMap_append (x : List β) (f : α → List β) (l : List α) :
    x ++ l.flatMap (fun a => f a ++ x) = l.flatMap (fun a => x ++ f a) ++ x := by
  induction l with
  | nil => simp
  | cons a l ih => simp only [flatMap_cons, append_assoc, ih]

/-! ## Separators -/

/-- Where a part without the separator ends, the separator follows or nothing does; so the part can be told from what follows. -/
theorem append_inj_of_sep {sep : α} {s s' t t' : List α} (hs : sep ∉ s) (hs' : sep ∉ s') (ht : ∀ a ∈ t.head?, a = sep)
    (ht' : ∀ a ∈ t'.head?, a = sep) (h : s ++ t = s' ++ t') : s = s' ∧ t = t' := by
  induction s generalizing s' with
  | nil =>
    cases s' with
    | nil => exact ⟨rfl, h⟩
    | cons a s' =>
      have hsep : a = sep := ht a (by rw [nil_append] at h; rw [h]; rfl)
      exact absurd (hsep ▸ mem_cons_self) hs'
  | cons a s ih =>
    cases s' with
    | nil =>
      have hsep : a = sep := ht' a (by rw [nil_append] at h; rw [← h]; rfl)
      exact absurd (hsep ▸ mem_cons_self) hs
    | cons b s' =>
      obtain ⟨rfl, hrest⟩ := List.cons.inj h
      obtain ⟨rfl, htail⟩ := ih (fun hm => hs (mem_cons_of_mem _ hm)) (fun hm => hs' (mem_cons_of_mem _ hm)) hrest
      exact ⟨rfl, htail⟩

/-- Code words that can be told apart before what follows them, which is as `E` says, and from what ends them, which is as `P`
says. -/
structure Codes (code : α → List β) (E P : List β → Prop) : Prop where
  inj : ∀ {a b r s}, E r → E s → code a ++ r = code b ++ s → a = b ∧ r = s
  next : ∀ {a r}, E r → E (code a ++ r)
  last : ∀ {r}, P r → E r
  stop : ∀ {a r}, ¬ P (code a ++ r)

namespace Codes

variable {code : α → List β} {E P : List β → Prop} {r s : List β}

theorem of_read {read : List β → Option (α × List β)} (hread : ∀ a r, read (code a ++ r) = some (a, r)) :
    Codes code (fun _ => True) (read · = none) where
  inj {a b r s} _ _ h := by
    have ha := hread a r
    rw [h, hread b s] at ha
    cases ha
    exact ⟨rfl, rfl⟩
  next _ := trivial
  last _ := trivial
  stop {a r} h := by
    rw [hread] at h
    cases h

theorem follows (h : Codes code E P) (hr : P r) (xs : List α) : E (xs.flatMap code ++ r) := by
  induction xs with
  | nil => exact h.last hr
  | cons x xs ih =>
    rw [flatMap_cons, append_assoc]
    exact h.next ih

theorem append_inj (h : Codes code E P) (hr : P r) (hs : P s) {xs ys : List α}
    (heq : xs.flatMap code ++ r = ys.flatMap code ++ s) : xs = ys ∧ r = s := by
  induction xs generalizing ys with
  | nil =>
    cases ys with
    | nil => exact ⟨rfl, heq⟩
    | cons y ys =>
      rw [flatMap_cons, append_assoc, flatMap_nil, nil_append] at heq
      exact absurd (heq ▸ hr) h.stop
  | cons x xs ih =>
    cases ys with
    | nil =>
      rw [flatMap_cons, append_assoc, flatMap_nil, nil_append] at heq
      exact absurd (heq ▸ hs) h.stop
    | cons y ys =>
      rw [flatMap_cons, flatMap_cons, append_assoc, append_assoc] at heq
      obtain ⟨rfl, hrest⟩ := h.inj (h.follows hr xs) (h.follows hs ys) heq
      obtain ⟨rfl, hend⟩ := ih hrest
      exact ⟨rfl, hend⟩

end Codes

/-! ## Elements that come again -/

section Repeated

variable [BEq β] [LawfulBEq β]

/-- The elements whose key has been seen before them. -/
def repeated (key : α → β) (seen : List β) : List α → List α
  | [] => []
  | a :: l => if seen.contains (key a) then a :: repeated key seen l else repeated key (seen ++ [key a]) l

theorem repeated_eq_nil {key : α → β} {seen : List β} {l : List α} :
    repeated key seen l = [] ↔ (l.map key).Nodup ∧ ∀ a ∈ l, key a ∉ seen := by
  induction l generalizing seen with
  | nil => simp [repeated]
  | cons a l ih =>
    rw [repeated, map_cons, nodup_cons]
    by_cases hseen : seen.contains (key a)
    · rw [if_pos hseen]
      refine iff_of_false (cons_ne_nil _ _) ?_
      rintro ⟨-, hnew⟩
      exact hnew a mem_cons_self (contains_iff_mem.mp hseen)
    · rw [if_neg hseen, ih]
      simp only [mem_append, mem_cons, not_mem_nil, or_false, not_or, mem_map, not_exists,
        not_and, forall_eq_or_imp]
      constructor
      · rintro ⟨hnodup, hnew⟩
        exact ⟨⟨fun x hx he => (hnew x hx).2 he, hnodup⟩, fun h => hseen (contains_iff_mem.mpr h), fun x hx => (hnew x hx).1⟩
      · rintro ⟨⟨hne, hnodup⟩, -, hnew⟩
        exact ⟨hnodup, fun x hx => ⟨hnew x hx, hne x hx⟩⟩

end Repeated

/-! ## Related lists -/

theorem exists_right_of_forall₂ {R : α → β → Prop} {l : List α} {l' : List β} (h : List.Forall₂ R l l') {a : α}
    (ha : a ∈ l) : ∃ b ∈ l', R a b := by
  induction h with
  | nil => cases ha
  | cons hR _ ih =>
    rcases mem_cons.mp ha with rfl | ha
    · exact ⟨_, mem_cons_self, hR⟩
    · obtain ⟨b, hb, hR'⟩ := ih ha
      exact ⟨b, mem_cons_of_mem _ hb, hR'⟩

theorem map_eq_of_forall₂ {R : α → β → Prop} {l : List α} {l' : List β} (h : List.Forall₂ R l l') {f : α → γ}
    {g : β → γ} (hf : ∀ a b, R a b → f a = g b) : l.map f = l'.map g := by
  induction h with
  | nil => rfl
  | cons hR _ ih => rw [map_cons, map_cons, hf _ _ hR, ih]

theorem forall₂_filterMap_iff {R : α → β → Prop} {p : α → Bool} {f : α → Option β} {l : List α}
    (h : ∀ a ∈ l, ∀ b, f a = some b → p a ∧ R a b) :
    List.Forall₂ R (l.filter p) (l.filterMap f) ↔ ∀ a ∈ l, p a → ∃ b, f a = some b := by
  induction l with
  | nil => exact iff_of_true .nil (fun a ha => absurd ha not_mem_nil)
  | cons a l ih =>
    have hl : ∀ a' ∈ l, ∀ b, f a' = some b → p a' ∧ R a' b := fun a' ha' => h a' (mem_cons_of_mem _ ha')
    rw [forall_mem_cons]
    cases hf : f a with
    | some b =>
      obtain ⟨hp, hR⟩ := h a mem_cons_self b hf
      rw [filter_cons_of_pos hp, filterMap_cons_some hf, forall₂_cons, ih hl]
      exact and_congr (iff_of_true hR (fun _ => ⟨b, rfl⟩)) Iff.rfl
    | none =>
      rw [filterMap_cons_none hf]
      cases hp : p a with
      | false =>
        rw [filter_cons_of_neg (Bool.eq_false_iff.mp hp), ih hl]
        exact (and_iff_right (fun h => absurd h Bool.false_ne_true)).symm
      | true =>
        rw [filter_cons_of_pos hp]
        refine iff_of_false (fun hR => ?_) (fun hs => absurd (hs.1 rfl) (by simp))
        -- one more is asked for than the filter can keep of the rest
        have hlen := hR.length_eq
        have hle : (l.filterMap f).length ≤ (l.filter p).length := by
          rw [length_filterMap_eq_countP, ← countP_eq_length_filter]
          refine countP_mono_left (fun a' ha' hs => ?_)
          obtain ⟨b, hb⟩ := Option.isSome_iff_exists.mp hs
          exact (hl a' ha' b hb).1
        rw [length_cons] at hlen
        omega

theorem forall₂_filterMap {f : α → Option β} {l : List α} (h : ∀ a ∈ l, ∃ b, f a = some b) :
    List.Forall₂ (fun a b => f a = some b) l (l.filterMap f) := by
  have hall := (forall₂_filterMap_iff (R := fun a b => f a = some b) (p := fun _ => true) (f := f) (l := l)
    (fun _ _ _ hb => ⟨rfl, hb⟩)).mpr (fun a ha _ => h a ha)
  rwa [filter_true] at hall

/-- A permutation of the list, with each element replaced by a related one. -/
def Reordered (R : α → α → Prop) (l l' : List α) : Prop :=
  ∃ m, l.Perm m ∧ List.Forall₂ R m l'

namespace Reordered

variable {R : α → α → Prop} {l l' : List α}

theorem exists_right (h : Reordered R l l') {a : α} (ha : a ∈ l) : ∃ a' ∈ l', R a a' := by
  obtain ⟨m, hp, hf⟩ := h
  exact exists_right_of_forall₂ hf (hp.mem_iff.mp ha)

theorem exists_left (h : Reordered R l l') {a' : α} (ha' : a' ∈ l') : ∃ a ∈ l, R a a' := by
  obtain ⟨m, hp, hf⟩ := h
  obtain ⟨a, ha, hR⟩ := exists_right_of_forall₂ hf.flip ha'
  exact ⟨a, hp.mem_iff.mpr ha, hR⟩

theorem map_perm (h : Reordered R l l') {f : α → β} (hf : ∀ a a', R a a' → f a = f a') :
    (l.map f).Perm (l'.map f) := by
  obtain ⟨m, hp, hm⟩ := h
  exact map_eq_of_forall₂ hm hf ▸ hp.map f

end Reordered

end Pulsate.Lib
