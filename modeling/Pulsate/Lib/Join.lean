import Mathlib.Order.Lattice
import Mathlib.Order.BoundedOrder.Lattice

/-!
# Joining everything in a list

The join of a list depends only on which elements the list has. A system whose every step joins something
into its state therefore ends in a state that no reordering or repetition of the steps changes.
-/

namespace Pulsate.Lib

open List

variable {σ ε τ : Type} [SemilatticeSup σ] [OrderBot σ] {f : ε → σ} {l l' : List ε}

/-- The join of what the elements of a list contribute. -/
def joinAll (f : ε → σ) (l : List ε) : σ := l.foldr (fun x acc => f x ⊔ acc) ⊥

@[simp] theorem joinAll_nil : joinAll f [] = ⊥ := rfl

@[simp] theorem joinAll_cons (x : ε) : joinAll f (x :: l) = f x ⊔ joinAll f l := rfl

theorem joinAll_le_iff {b : σ} : joinAll f l ≤ b ↔ ∀ x ∈ l, f x ≤ b := by
  induction l with
  | nil => simp
  | cons x l ih => rw [joinAll_cons, sup_le_iff, ih, forall_mem_cons]

theorem joinAll_congr (h : ∀ x, x ∈ l ↔ x ∈ l') : joinAll f l = joinAll f l' := by
  apply eq_of_forall_ge_iff
  intro b
  simp only [joinAll_le_iff, h]

theorem le_joinAll {x : ε} (hx : x ∈ l) : f x ≤ joinAll f l := joinAll_le_iff.mp le_rfl x hx

theorem joinAll_append : joinAll f (l ++ l') = joinAll f l ⊔ joinAll f l' := by
  apply eq_of_forall_ge_iff
  intro b
  simp only [sup_le_iff, joinAll_le_iff, forall_mem_append]

theorem foldl_joins {step : τ → ε → τ} (abs : τ → σ) {I : τ → Prop} {P : ε → Prop}
    (hkeep : ∀ s x, I s → P x → I (step s x)) (hjoin : ∀ s x, I s → P x → abs (step s x) = abs s ⊔ f x)
    {s : τ} (hs : I s) (hl : ∀ x ∈ l, P x) : abs (l.foldl step s) = abs s ⊔ joinAll f l := by
  induction l generalizing s with
  | nil => rw [foldl_nil, joinAll_nil, sup_bot_eq]
  | cons x l ih =>
    rw [forall_mem_cons] at hl
    rw [foldl_cons, ih (hkeep s x hs hl.1) hl.2, hjoin s x hs hl.1, joinAll_cons, sup_assoc]

end Pulsate.Lib
