import Mathlib.Data.List.Induction

/-!
# Runs of a step function

A run feeds a list of events to a step function. Every statement about whole runs in this development
goes through one of the rules below: an invariant of one step is an invariant of a run, and a preorder
that one step moves along is a preorder a run moves along.
-/

namespace Pulsate.Lib

variable {σ ε : Type}

/-- The state after feeding the events `es`, in order, to `step`. -/
def run (step : σ → ε → σ) (s : σ) (es : List ε) : σ := es.foldl step s

@[simp] theorem run_nil (step : σ → ε → σ) (s : σ) : run step s [] = s := rfl

@[simp] theorem run_cons (step : σ → ε → σ) (s : σ) (e : ε) (es : List ε) :
    run step s (e :: es) = run step (step s e) es := rfl

theorem run_append (step : σ → ε → σ) (s : σ) (es fs : List ε) :
    run step s (es ++ fs) = run step (run step s es) fs := List.foldl_append

theorem run_invariant {step : σ → ε → σ} {I : σ → Prop} (hstep : ∀ s e, I s → I (step s e))
    {s : σ} (hs : I s) (es : List ε) : I (run step s es) := by
  induction es generalizing s with
  | nil => exact hs
  | cons e es ih => exact ih (hstep s e hs)

theorem run_relates {step : σ → ε → σ} {R : σ → σ → Prop} (hrefl : ∀ s, R s s)
    (htrans : ∀ {a b c}, R a b → R b c → R a c) (hstep : ∀ s e, R s (step s e))
    (s : σ) (es : List ε) : R s (run step s es) := by
  induction es generalizing s with
  | nil => exact hrefl s
  | cons e es ih => exact htrans (hstep s e) (ih (step s e))

/-! ## Runs under a guard -/

section Guard

variable {step : σ → ε → σ} {ok : σ → ε → Prop}

/-- Every event is permitted in the state it is fed to. -/
def Permits (ok : σ → ε → Prop) (step : σ → ε → σ) : σ → List ε → Prop
  | _, [] => True
  | s, e :: es => ok s e ∧ Permits ok step (step s e) es

instance decidablePermits [∀ s e, Decidable (ok s e)] : (s : σ) → (es : List ε) → Decidable (Permits ok step s es)
  | _, [] => isTrue trivial
  | s, e :: es => @instDecidableAnd _ _ _ (decidablePermits (step s e) es)

/-- A weaker guard, where it is weaker along the run. -/
theorem Permits.imp {ok' : σ → ε → Prop} {s : σ} {es : List ε} (h : Permits ok step s es)
    (himp : ∀ pre e post, es = pre ++ e :: post → ok (run step s pre) e → ok' (run step s pre) e) :
    Permits ok' step s es := by
  induction es generalizing s with
  | nil => trivial
  | cons e es ih =>
    refine ⟨himp [] e es rfl h.1, ih h.2 (fun pre e' post heq => ?_)⟩
    exact himp (e :: pre) e' post (by rw [heq]; rfl)

theorem permits_iff {s : σ} {es : List ε} :
    Permits ok step s es ↔ ∀ pre e post, es = pre ++ e :: post → ok (run step s pre) e := by
  induction es generalizing s with
  | nil => exact iff_of_true trivial (fun pre e post h => by simp at h)
  | cons e es ih =>
    rw [Permits, ih]
    constructor
    · rintro ⟨he, hes⟩ pre e' post heq
      cases pre with
      | nil =>
        cases heq
        exact he
      | cons first pre =>
        cases heq
        exact hes pre e' post rfl
    · intro h
      exact ⟨h [] e es rfl, fun pre e' post heq => h (e :: pre) e' post (by rw [heq]; rfl)⟩

theorem permits_append {s : σ} {es fs : List ε} :
    Permits ok step s (es ++ fs) ↔ Permits ok step s es ∧ Permits ok step (run step s es) fs := by
  induction es generalizing s with
  | nil => exact (and_iff_right trivial).symm
  | cons e es ih =>
    show ok s e ∧ Permits ok step (step s e) (es ++ fs) ↔ _
    rw [ih, ← and_assoc]
    rfl

theorem permits_concat {s : σ} {es : List ε} {e : ε} :
    Permits ok step s (es ++ [e]) ↔ Permits ok step s es ∧ ok (run step s es) e := by
  rw [permits_append]
  exact and_congr_right (fun _ => and_iff_left trivial)

theorem run_concat (step : σ → ε → σ) (s : σ) (es : List ε) (e : ε) :
    run step s (es ++ [e]) = step (run step s es) e := by
  rw [run_append]
  rfl

theorem history_invariant {I : List ε → σ → Prop} {s : σ} (hs : I [] s)
    (hstep : ∀ es e, Permits ok step s (es ++ [e]) → I es (run step s es) → I (es ++ [e]) (step (run step s es) e))
    (es : List ε) (h : Permits ok step s es) : I es (run step s es) := by
  induction es using List.reverseRecOn with
  | nil => exact hs
  | append_singleton es e ih =>
    rw [run_concat]
    exact hstep es e h (ih (permits_concat.mp h).1)

end Guard

end Pulsate.Lib
