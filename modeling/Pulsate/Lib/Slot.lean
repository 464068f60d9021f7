import Pulsate.Lib.Run

/-!
# A slot that events fill and empty

An event puts a value into the slot, or it leaves the slot as it is unless it drops the value there. After a run the slot holds
what was put into it last, provided that nothing has dropped it since.
-/

namespace Pulsate.Lib

variable {σ ε ν : Type}

/-- How a step treats a slot: what it puts there, and which values it drops. -/
structure IsSlot (step : σ → ε → σ) (slot : σ → Option ν) (puts : σ → ε → Option ν) (drops : σ → ε → ν → Prop) : Prop where
  step_iff : ∀ s e v, slot (step s e) = some v ↔ puts s e = some v ∨ puts s e = none ∧ slot s = some v ∧ ¬ drops s e v

/-- The value was put into the slot by the event after `pre`, and has stayed there. -/
structure PutBy (step : σ → ε → σ) (puts : σ → ε → Option ν) (drops : σ → ε → ν → Prop) (s : σ) (v : ν) (pre : List ε) (e : ε)
    (post : List ε) : Prop where
  put : puts (run step s pre) e = some v
  kept : Permits (fun s e => puts s e = none ∧ ¬ drops s e v) step (run step s (pre ++ [e])) post

variable {step : σ → ε → σ} {slot : σ → Option ν} {puts : σ → ε → Option ν} {drops : σ → ε → ν → Prop} {s : σ} {v : ν}

theorem run_split (step : σ → ε → σ) (s : σ) (pre : List ε) (e : ε) (post : List ε) :
    run step (run step s (pre ++ [e])) post = run step s (pre ++ e :: post) := by
  rw [← run_append, List.append_assoc]
  rfl

theorem IsSlot.run_iff (h : IsSlot step slot puts drops) (hs : slot s = none) (es : List ε) :
    slot (run step s es) = some v ↔ ∃ pre e post, es = pre ++ e :: post ∧ PutBy step puts drops s v pre e post := by
  induction es using List.reverseRecOn with
  | nil =>
    rw [run_nil, hs]
    refine iff_of_false (by simp) ?_
    rintro ⟨pre, e, post, he, -⟩
    simp at he
  | append_singleton es last ih =>
    rw [run_concat, h.step_iff, ih]
    constructor
    · rintro (hput | ⟨hnone, ⟨pre, e, post, rfl, hput⟩, hkeep⟩)
      · exact ⟨es, last, [], rfl, hput, trivial⟩
      · refine ⟨pre, e, post ++ [last], by simp, hput.put, permits_append.mpr ⟨hput.kept, ?_, trivial⟩⟩
        rw [run_split]
        exact ⟨hnone, hkeep⟩
    · rintro ⟨pre, e, post, heq, hput⟩
      cases post using List.reverseRecOn with
      | nil =>
        obtain ⟨rfl, rfl⟩ := List.append_singleton_inj.mp heq
        exact .inl hput.put
      | append_singleton post last' =>
        have heq' : es ++ [last] = (pre ++ e :: post) ++ [last'] := by rw [heq]; simp
        obtain ⟨rfl, rfl⟩ := List.append_singleton_inj.mp heq'
        obtain ⟨hkept, hlast⟩ := permits_concat.mp hput.kept
        rw [run_split] at hlast
        exact .inr ⟨hlast.1, ⟨pre, e, post, rfl, hput.put, hkept⟩, hlast.2⟩

theorem IsSlot.kept_iff (h : IsSlot step slot puts drops) {es : List ε} (hputs : Permits (fun s e => puts s e = none) step s es) :
    slot (run step s es) = some v ↔ slot s = some v ∧ Permits (fun s e => ¬ drops s e v) step s es := by
  induction es generalizing s with
  | nil => exact (and_iff_left trivial).symm
  | cons e es ih =>
    have hstep : slot (step s e) = some v ↔ slot s = some v ∧ ¬ drops s e v := by
      rw [h.step_iff, hputs.1]
      simp
    rw [run_cons, ih hputs.2, hstep, and_assoc]
    rfl

end Pulsate.Lib
