import Pulsate.Lib.Slot
import Pulsate.Proxy.Pool

/-!
# The streak and the deadline of a target
-/

namespace Pulsate.Proxy

open List Lib
open Lib (IsSlot run)

variable {up : Upstream} {health : Health} {i : Nat}

/-! ## Changes of one target -/

theorem change_self (f : TargetState → TargetState) (h : i < up.backends.length) :
    (up.change f i health).targets i = f (health.targets i) := by
  rw [Upstream.change, if_pos h]
  exact Function.update_self _ _ _

theorem change_ne (f : TargetState → TargetState) {j : Nat} (h : i ≠ j) :
    (up.change f j health).targets i = health.targets i := by
  unfold Upstream.change
  split
  · exact Function.update_of_ne h _ _
  · rfl

theorem record_ne {r : Record} (h : r.target ≠ i) : (up.record health r).targets i = health.targets i := by
  unfold Upstream.record
  split
  · exact change_ne _ h.symm
  · exact change_ne _ h.symm

theorem record_success {r : Record} (h : r.target = i) (hi : i < up.backends.length) (hr : r.failed = false) :
    (up.record health r).targets i = { health.targets i with consecutiveFailures := 0, ejectedUntil := none } := by
  subst h
  rw [Upstream.record, if_neg (by simp [hr])]
  exact change_self _ hi

theorem record_failure {r : Record} (h : r.target = i) (hi : i < up.backends.length) (hr : r.failed) :
    (up.record health r).targets i =
      if up.breaker.consecutiveFailures ≤ (health.targets i).consecutiveFailures + 1 then
        { health.targets i with consecutiveFailures := 0, ejectedUntil := some (r.now + up.breaker.openFor.nanos) }
      else { health.targets i with consecutiveFailures := (health.targets i).consecutiveFailures + 1 } := by
  subst h
  rw [Upstream.record, if_pos hr]
  exact change_self _ hi

theorem record_congr {health' : Health} (h : health.targets i = health'.targets i) (r : Record) :
    (up.record health r).targets i = (up.record health' r).targets i := by
  by_cases htarget : r.target = i
  · subst htarget
    unfold Upstream.record Upstream.recordFailure Upstream.recordSuccess Upstream.change
    split <;> split
    all_goals
      simp only [Health.set, Function.update_self, h]
  · rw [record_ne htarget, record_ne htarget, h]

theorem run_recordsOf (i : Nat) (records : List Record) :
    (run up.record .new records).targets i = (run up.record .new (recordsOf i records)).targets i := by
  induction records using List.reverseRecOn with
  | nil => rfl
  | append_singleton records r ih =>
    rw [run_concat, recordsOf]
    by_cases htarget : r.target = i
    · rw [filter_append, filter_cons_of_pos (by simpa using htarget), filter_nil, run_concat]
      exact record_congr ih r
    · rw [filter_append, filter_cons_of_neg (by simpa using htarget), filter_nil, append_nil, record_ne htarget]
      exact ih

/-! ## Streaks -/

theorem recordsOf_concat (i : Nat) (records : List Record) (r : Record) :
    recordsOf i (records ++ [r]) = if r.target = i then recordsOf i records ++ [r] else recordsOf i records := by
  unfold recordsOf
  rw [filter_append]
  by_cases h : r.target = i
  · simp [h]
  · simp [h]

theorem streak_concat (i : Nat) (records : List Record) (r : Record) :
    streak i (records ++ [r]) = if r.target = i then if r.failed then streak i records + 1 else 0 else streak i records := by
  unfold streak
  rw [recordsOf_concat]
  split
  · rw [reverse_concat, takeWhile_cons]
    split
    · rfl
    · rfl
  · rfl

theorem threshold_pos (up : Upstream) : 0 < up.threshold := Nat.le_max_left 1 _

theorem succ_mod (n : Nat) {t : Nat} (ht : 0 < t) : (n + 1) % t = if n % t + 1 = t then 0 else n % t + 1 := by
  have hlt := Nat.mod_lt n ht
  rw [← Nat.mod_add_mod]
  split
  · rename_i hfull
    rw [hfull, Nat.mod_self]
  · exact Nat.mod_eq_of_lt (by omega)

/-- A counter that starts again at the threshold reaches it with the next failure exactly if the streak gets to a multiple. -/
theorem reaches_iff (up : Upstream) (n : Nat) :
    up.breaker.consecutiveFailures ≤ n % up.threshold + 1 ↔ up.threshold ∣ n + 1 := by
  have hlt := Nat.mod_lt n (threshold_pos up)
  rw [Nat.dvd_iff_mod_eq_zero, succ_mod n (threshold_pos up)]
  unfold Upstream.threshold at hlt ⊢
  split
  · omega
  · omega

theorem counter_run (hi : i < up.backends.length) (records : List Record) :
    ((run up.record .new records).targets i).consecutiveFailures = streak i records % up.threshold := by
  induction records using List.reverseRecOn with
  | nil => exact (Nat.zero_mod _).symm
  | append_singleton records r ih =>
    rw [run_concat, streak_concat]
    split
    · rename_i htarget
      split
      · rename_i hfailed
        rw [record_failure htarget hi hfailed, ih, succ_mod _ (threshold_pos up)]
        have hlt := Nat.mod_lt (streak i records) (threshold_pos up)
        unfold Upstream.threshold at hlt ⊢
        split <;> split <;> first | rfl | omega
      · rename_i hok
        rw [record_success htarget hi (by simpa using hok)]
        exact (Nat.zero_mod _).symm
    · rename_i htarget
      rw [record_ne htarget, ih]

/-! ## Deadlines -/

/-- What a record puts into the deadline of a target. -/
def newDeadline (up : Upstream) (i : Nat) (health : Health) (r : Record) : Option Nat :=
  if r.target = i ∧ r.failed ∧ up.breaker.consecutiveFailures ≤ (health.targets i).consecutiveFailures + 1 then
    some (r.now + up.breaker.openFor.nanos)
  else none

theorem isSlot_ejectedUntil (hi : i < up.backends.length) :
    IsSlot up.record (fun health => (health.targets i).ejectedUntil) (newDeadline up i)
      (fun _ r _ => r.target = i ∧ r.failed = false) := by
  constructor
  intro health r deadline
  unfold newDeadline
  by_cases htarget : r.target = i
  · cases hfailed : r.failed with
    | true =>
      rw [record_failure htarget hi hfailed]
      split
      · simp [*]
      · simp [*]
    | false =>
      rw [record_success htarget hi hfailed]
      simp [*]
  · rw [record_ne htarget]
    simp [htarget]

theorem newDeadline_run (hi : i < up.backends.length) (records : List Record) (r : Record) (deadline : Nat) :
    newDeadline up i (run up.record .new records) r = some deadline ↔
      Trips up i records r ∧ deadline = r.now + up.breaker.openFor.nanos := by
  unfold newDeadline Trips
  rw [Option.ite_none_right_eq_some, counter_run hi, reaches_iff, Option.some.injEq]
  exact and_congr_right (fun _ => eq_comm)

end Pulsate.Proxy
