import Mathlib.Data.List.Induction

/-!
# Tries

A loop with a budget. Each try may give up before it sends anything, or send something after which the loop ends or goes round
again. A try is told its number and the state that the tries before it have left.
-/

namespace Pulsate.Lib

open Option

/-- What a try comes to. -/
inductive Try (σ α ρ : Type)
  | refused (result : ρ) (state : σ)
  | final (sent : α) (result : ρ) (state : σ)
  | again (sent : α) (state : σ)

/-- What the loop comes to, with all that has been sent. -/
structure Tried (σ α ρ : Type) where
  result : ρ
  state : σ
  sent : List α

variable {σ α ρ : Type}

namespace Try

def state : Try σ α ρ → σ
  | refused _ s | final _ _ s | again _ s => s

def sent : Try σ α ρ → Option α
  | refused _ _ => none
  | final x _ _ | again x _ => some x

def result : Try σ α ρ → Option ρ
  | refused r _ | final _ r _ => some r
  | again _ _ => none

/-- The state with which the loop goes on. -/
def next : Try σ α ρ → Option σ
  | refused _ _ | final _ _ _ => none
  | again _ s => some s

end Try

/-- The loop, with so many tries left and from the try of this number on. -/
def tries (attempt : Nat → σ → Try σ α ρ) (exhausted : ρ) : (left k : Nat) → σ → Tried σ α ρ
  | 0, _, s => ⟨exhausted, s, []⟩
  | left + 1, k, s =>
    match attempt k s with
    | .refused r s => ⟨r, s, []⟩
    | .final x r s => ⟨r, s, [x]⟩
    | .again x s =>
      let rest := tries attempt exhausted left (k + 1) s
      ⟨rest.result, rest.state, x :: rest.sent⟩

/-- The state before the `m`th try from `k` on, if it comes to that. -/
def before (attempt : Nat → σ → Try σ α ρ) : (k m : Nat) → σ → Option σ
  | _, 0, s => some s
  | k, m + 1, s => (attempt k s).next.bind (before attempt (k + 1) m)

section Tries

variable {attempt : Nat → σ → Try σ α ρ} {exhausted : ρ} {left k m : Nat} {s t : σ}

theorem before_succ : before attempt k (m + 1) s = (before attempt k m s).bind (fun s => (attempt (k + m) s).next) := by
  induction m generalizing k s with
  | zero => exact bind_fun_some _
  | succ m ih =>
    rw [before, before, bind_assoc]
    congr 1
    funext s
    rw [ih, Nat.add_right_comm, Nat.add_assoc]

theorem sent_tries : (tries attempt exhausted left k s).sent[m]? =
    if m < left then (before attempt k m s).bind (fun s => (attempt (k + m) s).sent) else none := by
  induction left generalizing k m s with
  | zero => rfl
  | succ left ih =>
    rw [tries]
    cases m with
    | zero => cases h : attempt k s <;> simp [before, h, Try.sent]
    | succ m =>
      rw [before]
      cases h : attempt k s with
      | refused r s => simp [Try.next]
      | final x r s => simp [Try.next]
      | again x s =>
        simp only [List.getElem?_cons_succ, ih, Try.next, bind_some, Nat.add_lt_add_iff_right]
        rw [Nat.add_right_comm, Nat.add_assoc]

theorem sent_tries_eq_some {x : α} : (tries attempt exhausted left k s).sent[m]? = some x ↔
    m < left ∧ ∃ t, before attempt k m s = some t ∧ (attempt (k + m) t).sent = some x := by
  rw [sent_tries, ite_none_right_eq_some, bind_eq_some_iff]

theorem tries_cases (attempt : Nat → σ → Try σ α ρ) (exhausted : ρ) (left k : Nat) (s : σ) :
    (∃ m t, m < left ∧ before attempt k m s = some t ∧
      (attempt (k + m) t).result = some (tries attempt exhausted left k s).result ∧
      (tries attempt exhausted left k s).state = (attempt (k + m) t).state ∧
      (tries attempt exhausted left k s).sent.length = m + (attempt (k + m) t).sent.toList.length) ∨
    before attempt k left s = some (tries attempt exhausted left k s).state ∧
      (tries attempt exhausted left k s).result = exhausted ∧ (tries attempt exhausted left k s).sent.length = left := by
  induction left generalizing k s with
  | zero => exact .inr ⟨rfl, rfl, rfl⟩
  | succ left ih =>
    rw [tries, before]
    cases h : attempt k s with
    | refused r t => exact .inl ⟨0, s, Nat.succ_pos left, rfl, by simp [h, Try.result], by simp [h, Try.state], by simp [h, Try.sent]⟩
    | final x r t => exact .inl ⟨0, s, Nat.succ_pos left, rfl, by simp [h, Try.result], by simp [h, Try.state], by simp [h, Try.sent]⟩
    | again x t =>
      rcases ih (k + 1) t with ⟨m, u, hm, hu, hresult, hstate, hsent⟩ | ⟨hu, hresult, hsent⟩
      · have hadd : k + (m + 1) = k + 1 + m := by omega
        refine .inl ⟨m + 1, u, Nat.succ_lt_succ hm, ?_, ?_⟩
        · rw [before, h]
          exact hu
        · rw [hadd]
          exact ⟨hresult, hstate, by simp [hsent]; omega⟩
      · exact .inr ⟨hu, hresult, by simp [hsent]⟩

theorem tries_history {I : List α → σ → Prop}
    (hnone : ∀ xs k s, I xs s → (attempt k s).sent = none → I xs (attempt k s).state)
    (hsome : ∀ xs k s x, I xs s → (attempt k s).sent = some x → I (xs ++ [x]) (attempt k s).state) (xs : List α) (h : I xs s) :
    I (xs ++ (tries attempt exhausted left k s).sent) (tries attempt exhausted left k s).state := by
  induction left generalizing k s xs with
  | zero => simpa [tries] using h
  | succ left ih =>
    have hnone := hnone xs k s
    have hsome := hsome xs k s
    rw [tries]
    cases htry : attempt k s with
    | refused r t =>
      rw [htry] at hnone
      simpa [Try.state] using hnone h rfl
    | final x r t =>
      rw [htry] at hsome
      exact hsome x h rfl
    | again x t =>
      rw [htry] at hsome
      simpa [Try.state] using ih (k := k + 1) (xs ++ [x]) (hsome x h rfl)

end Tries

end Pulsate.Lib
