import Mathlib.Algebra.Order.BigOperators.Group.List
import Mathlib.Algebra.Order.Group.Nat
import Pulsate.Cluster.Lemmas.Handle

/-!
# The counter along a run

Only increments and frames touch the counter. Each raises the sum of the slots by an amount that the counter
reports modulo the size of a word.
-/

namespace Pulsate.Cluster

open Pulsate.Lib List OrdMap

/-! ## Sums -/

/-- By how much merging another counter raises the sum of the slots. -/
def GCounter.gain (c other : GCounter) : Nat :=
  (other.counts.entries.map (fun e => e.2 - (c.counts.get? e.1).getD 0)).sum

theorem value_incr (c : GCounter) (node : NodeId) (n : Nat) : (c.incr node n).value = u64 (c.value + n) := by
  have h := sum_values_alter c.counts node (fun old => u64 (old.getD 0 + n))
  have hle : (c.counts.get? node).getD 0 ≤ c.counts.values.sum := by
    cases hg : c.counts.get? node with
    | none => exact Nat.zero_le _
    | some v =>
      refine le_sum_of_mem (mem_map.mpr ⟨(node, v), mem_entries_iff.mpr hg, rfl⟩)
  rw [GCounter.value, GCounter.value, GCounter.incr]
  simp only [u64] at h ⊢
  omega

theorem sum_foldl_max (es : List (NodeId × ℕ)) (hes : (es.map Prod.fst).Nodup) (m : OrdMap NodeId ℕ) :
    (es.foldl (fun m e => m.alter e.1 (fun old => max (old.getD 0) e.2)) m).values.sum =
      m.values.sum + (es.map (fun e => e.2 - (m.get? e.1).getD 0)).sum := by
  induction es generalizing m with
  | nil => rfl
  | cons e es ih =>
    rw [map_cons, nodup_cons] at hes
    have hrest : es.map (fun e' => e'.2 - ((m.alter e.1 (fun old => max (old.getD 0) e.2)).get? e'.1).getD 0) =
        es.map (fun e' => e'.2 - (m.get? e'.1).getD 0) := by
      refine map_congr_left (fun e' he' => ?_)
      have hne : e'.1 ≠ e.1 := fun h => hes.1 (mem_map.mpr ⟨e', he', h⟩)
      rw [get?_alter, if_neg hne]
    have h := sum_values_alter m e.1 (fun old => max (old.getD 0) e.2)
    rw [foldl_cons, ih hes.2, hrest, map_cons, sum_cons]
    omega

theorem value_merge (c d : GCounter) : (c.merge d).value = u64 (c.value + c.gain d) := by
  rw [GCounter.value, GCounter.merge, sum_foldl_max _ d.counts.nodup_keys, GCounter.value, GCounter.gain]
  simp only [u64]
  omega

/-! ## Events -/

/-- The value a node reports (`Cluster::counter_value`). -/
def Runtime.counterValue (r : Runtime) : Nat := r.shared.counter.value

/-- By how much an event raises the sum of the slots, before any of it wraps around. -/
def Runtime.gain (r : Runtime) : Event → Nat
  | .incr n => n
  | .handle _ _ _ (some f) => if f.version = protocolVersion then r.shared.counter.gain f.counter else 0
  | _ => 0

theorem markSuspect_counter (s : Shared) (timeout : Nat) (n : NodeId) (now : Instant) :
    (s.markSuspect timeout n now).counter = s.counter := by
  unfold Shared.markSuspect
  split
  · split <;> rfl
  · rfl

theorem step_counter_other (r : Runtime) (e : Event) (hincr : ∀ n, e ≠ .incr n)
    (hframe : ∀ o clock now f, e ≠ .handle o clock now (some f)) : (r.step e).shared.counter = r.shared.counter := by
  have h := turns r e
  generalize r.step e = r' at h ⊢
  cases h with
  | heard => exact absurd rfl (hframe _ _ _ _)
  | acked => exact absurd rfl (hframe _ _ _ _)
  | suspected => exact markSuspect_counter _ _ _ _
  | markedSuspect => exact markSuspect_counter _ _ _ _
  | markedAlive => exact markAlive_counter _ _
  | counted => exact absurd rfl (hincr _)
  | _ => rfl

theorem counterValue_step (r : Runtime) (e : Event) : (r.step e).counterValue = u64 (r.counterValue + r.gain e) := by
  have hsame : ∀ c : GCounter, c.value = u64 (c.value + 0) := by
    intro c
    simp only [GCounter.value, u64]
    omega
  by_cases hincr : ∃ n, e = .incr n
  · obtain ⟨n, rfl⟩ := hincr
    exact value_incr _ _ _
  · by_cases hframe : ∃ o clock now f, e = .handle o clock now (some f)
    · obtain ⟨o, clock, now, f, rfl⟩ := hframe
      show (r.handle o clock now (some f)).1.shared.counter.value = u64 (r.shared.counter.value + r.gain _)
      rw [Runtime.gain]
      split
      · rename_i hv
        rw [handle_counter hv, value_merge]
      · rename_i hv
        rw [handle_version hv]
        exact hsame _
    · have hgain : r.gain e = 0 := by
        cases e with
        | handle o clock now d =>
          cases d with
          | none => rfl
          | some f => exact absurd ⟨o, clock, now, f, rfl⟩ hframe
        | incr n => exact absurd ⟨n, rfl⟩ hincr
        | _ => rfl
      rw [Runtime.counterValue, step_counter_other r e (fun n h => hincr ⟨n, h⟩)
        (fun o clock now f h => hframe ⟨o, clock, now, f, h⟩), hgain]
      exact hsame _

theorem le_u64_add {v g : Nat} (hv : v < 2 ^ 64) : v ≤ u64 (v + g) ↔ v + g % 2 ^ 64 < 2 ^ 64 := by
  simp only [u64]
  omega

end Pulsate.Cluster
