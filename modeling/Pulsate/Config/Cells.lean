import Pulsate.Config.Lemmas.Acceptance
import Pulsate.Config.Store
import Pulsate.Lib.Cells
import Pulsate.Lib.Except
import Pulsate.Lib.Run

/-!
# The store as two cells

Called by one thread, the store is a pair of cells, with a number for each generation.
-/

namespace Pulsate.Conf

open List Lib
open Lib (Cells run run_append run_cons run_nil)

namespace ConfigStore

variable {env : Str → Option Str}

variable {text : Str} {e : CompileError}

/-! ## Calls -/

def cells (store : ConfigStore) : Cells Generation := ⟨store.current, store.previous⟩

/-- What a call does to the cells. -/
def effect (env : Str → Option Str) (store : ConfigStore) : Call → List (Cells.Op Generation)
  | .reload text => (store.reload env text).1.toOption.toList.map .publish
  | .rollback => [.swap]

def effects (env : Str → Option Str) : ConfigStore → List Call → List (Cells.Op Generation)
  | _, [] => []
  | store, call :: calls => effect env store call ++ effects env (store.step env call) calls

/-- The generations that calls publish, in order. -/
def published (env : Str → Option Str) : ConfigStore → List Call → List Generation
  | _, [] => []
  | store, .reload text :: calls =>
    (store.reload env text).1.toOption.toList ++ published env (store.reload env text).2 calls
  | store, .rollback :: calls => published env store.rollback.2 calls

def isReload : Call → Bool
  | .reload _ => true
  | .rollback => false

theorem reload_of_ok (store : ConfigStore) {compiled : Compiled}
    (h : compile env text store.nextGeneration.toNat = .ok compiled) :
    store.reload env text = (.ok (generationOf compiled),
      ⟨generationOf compiled, some store.current, store.nextGeneration + 1⟩) := by
  rw [reload, h]

theorem reload_of_error (store : ConfigStore) (h : compile env text store.nextGeneration.toNat = .error e) :
    store.reload env text = (.error e, { store with nextGeneration := store.nextGeneration + 1 }) := by
  rw [reload, h]

/-! ## Refinement -/

theorem cells_step (store : ConfigStore) (call : Call) :
    (store.step env call).cells = (effect env store call).foldl Cells.apply store.cells := by
  cases call with
  | reload text =>
    rw [step, effect]
    cases h : compile env text store.nextGeneration.toNat with
    | ok compiled => rw [reload_of_ok store h]; rfl
    | error e => rw [reload_of_error store h]; rfl
  | rollback =>
    obtain ⟨current, previous, next⟩ := store
    cases previous <;> rfl

theorem cells_run (store : ConfigStore) (calls : List Call) :
    (run (step env) store calls).cells = (effects env store calls).foldl Cells.apply store.cells := by
  induction calls generalizing store with
  | nil => rfl
  | cons call calls ih => rw [run_cons, ih, effects, foldl_append, cells_step]

theorem rollback_rollback (store : ConfigStore) : store.rollback.2.rollback.2 = store := by
  obtain ⟨current, previous, next⟩ := store
  cases previous <;> rfl

theorem rollback_reload {store : ConfigStore} {new : Generation} (h : (store.reload env text).1 = .ok new) :
    (store.reload env text).2.rollback.2.current = store.current := by
  cases hc : compile env text store.nextGeneration.toNat with
  | ok compiled => rw [reload_of_ok store hc]; rfl
  | error e =>
    rw [reload_of_error store hc] at h
    cases h

/-! ## Numbers -/

theorem published_numbers (store : ConfigStore) {n : Nat} (calls : List Call)
    (hn : store.nextGeneration = UInt64.ofNat n) (hfew : n + calls.countP isReload ≤ 2 ^ 64) :
    ((published env store calls).map (·.generation)).Pairwise (· < ·) ∧
      ∀ g ∈ published env store calls, n ≤ g.generation := by
  induction calls generalizing store n with
  | nil => exact ⟨.nil, fun g hg => absurd hg not_mem_nil⟩
  | cons call calls ih =>
    cases call with
    | rollback =>
      rw [countP_cons_of_neg (by decide)] at hfew
      refine ih _ ?_ hfew
      obtain ⟨current, previous, next⟩ := store
      cases previous <;> exact hn
    | reload text =>
      rw [countP_cons_of_pos rfl] at hfew
      have hnext : store.nextGeneration + 1 = UInt64.ofNat (n + 1) := by
        rw [hn, UInt64.ofNat_add]
        rfl
      rw [published]
      cases hc : compile env text store.nextGeneration.toNat with
      | error e =>
        rw [reload_of_error store hc]
        obtain ⟨hpair, hle⟩ := ih { store with nextGeneration := store.nextGeneration + 1 } hnext (by omega)
        exact ⟨hpair, fun g hg => (Nat.le_succ n).trans (hle g hg)⟩
      | ok compiled =>
        rw [reload_of_ok store hc]
        obtain ⟨hpair, hle⟩ := ih
          ⟨generationOf compiled, some store.current, store.nextGeneration + 1⟩ hnext (by omega)
        have hnum : compiled.generation = n := by
          obtain ⟨ast, -, rfl, -⟩ := compile_inv hc
          rw [hn]
          exact UInt64.toNat_ofNat_of_lt' (show n < 2 ^ 64 by omega)
        rw [Except.toOption, Option.toList_some, singleton_append, map_cons, pairwise_cons,
          forall_mem_map]
        refine ⟨⟨fun g hg => ?_, hpair⟩, fun g hg => ?_⟩
        · exact lt_of_eq_of_lt hnum (hle g hg)
        · rcases mem_cons.mp hg with rfl | hg
          · exact hnum.ge
          · exact (Nat.le_succ n).trans (hle g hg)

theorem compile_error {g : Nat} (h : compile env text g = .error e) (g' : Nat) : compile env text g' = .error e := by
  rw [compile] at h ⊢
  cases hp : Flow.parse text with
  | error f =>
    rw [hp] at h
    cases f <;> exact h
  | ok ast =>
    rw [hp] at h
    dsimp only at h ⊢
    split at h
    · rename_i herr
      rw [if_pos herr]
      exact h
    · cases h

theorem run_rejected (h : compile env text 0 = .error e) (store : ConfigStore) (k : Nat) :
    run (step env) store (List.replicate k (.reload text)) =
      { store with nextGeneration := store.nextGeneration + UInt64.ofNat k } := by
  induction k generalizing store with
  | zero =>
    rw [replicate_zero, run_nil]
    exact congrArg (ConfigStore.mk _ _) (UInt64.add_zero _).symm
  | succ k ih =>
    rw [replicate_succ, run_cons, step, reload_of_error _ (compile_error h _), ih]
    refine congrArg (ConfigStore.mk _ _) ?_
    rw [UInt64.add_assoc, UInt64.ofNat_add, UInt64.add_comm 1]
    rfl

/-! ## Runs -/

/-- After a successful load every run of calls is a run of the two cells. Two rollbacks in a row change nothing, and a
rollback after a successful reload restores what was live. Each of fewer than 2^64 reloads publishes under a greater
number than all before it. -/
theorem store_two_cells (env : Str → Option Str) (text : Str) (store : ConfigStore) (h : load env text = .ok store)
    (calls : List Call) :
    (run (step env) store calls).cells = (effects env store calls).foldl Cells.apply store.cells ∧
    run (step env) store (calls ++ [.rollback, .rollback]) = run (step env) store calls ∧
    (∀ t new, ((run (step env) store calls).reload env t).1 = .ok new →
      (run (step env) store (calls ++ [.reload t, .rollback])).current = (run (step env) store calls).current) ∧
    (calls.countP isReload < 2 ^ 64 →
      ((store.current :: published env store calls).map (·.generation)).Pairwise (· < ·) ∧
      ∀ g ∈ store.current :: published env store calls, ∀ g' ∈ store.current :: published env store calls,
        g.generation = g'.generation → g = g') := by
  refine ⟨cells_run store calls, ?_, fun t new hnew => ?_, fun hfew => ?_⟩
  · rw [run_append]
    exact rollback_rollback _
  · rw [run_append]
    exact rollback_reload hnew
  · cases hc : compile env text 0 with
    | error e =>
      rw [load, hc] at h
      cases h
    | ok compiled =>
      rw [load, hc] at h
      cases h
      obtain ⟨hpair, hle⟩ : ((published env ⟨generationOf compiled, none, 1⟩ calls).map (·.generation)).Pairwise (· < ·) ∧
          ∀ g ∈ published env ⟨generationOf compiled, none, 1⟩ calls, 1 ≤ g.generation :=
        published_numbers _ calls rfl (by omega)
      have hzero : compiled.generation = 0 := by
        obtain ⟨ast, -, rfl, -⟩ := compile_inv hc
        rfl
      have hall : ((generationOf compiled :: published env ⟨generationOf compiled, none, 1⟩ calls).map
          (·.generation)).Pairwise (· < ·) := by
        rw [map_cons, pairwise_cons, forall_mem_map]
        exact ⟨fun g hg => lt_of_eq_of_lt hzero (hle g hg), hpair⟩
      exact ⟨hall, fun g hg g' hg' heq => inj_on_of_nodup_map (hall.imp ne_of_lt) hg hg' heq⟩

def firstText : Str := "site a.test \x7b\n  route /* ~> respond(status=200)\n\x7d\n"

def brokenText : Str := "\x7d"

def secondText : Str := "site b.test \x7b\n  route /* ~> respond(status=200)\n\x7d\n"

theorem number_after_rejected (k : Nat) (hwrap : 1 + UInt64.ofNat k = 0) : ∃ store, load (fun _ => none) firstText = .ok store ∧
    (run (step (fun _ => none)) store (List.replicate k (.reload brokenText) ++ [.reload secondText])).current.generation =
      store.current.generation ∧
    (run (step (fun _ => none)) store (List.replicate k (.reload brokenText) ++ [.reload secondText])).current.config ≠
      store.current.config := by
  have hcheck : (compile (fun _ => none) firstText 0).toOption.any (fun first =>
      (compile (fun _ => none) secondText 0).toOption.any (fun second =>
        decide (first.generation = 0) && decide (second.generation = 0) && decide (second.config ≠ first.config))) := by
    decide +kernel
  have hbroken : ((compile (fun _ => none) brokenText 0).toOption.isNone) := by decide +kernel
  obtain ⟨first, hfirst, hany⟩ := (Option.any_eq_true _ _).mp hcheck
  obtain ⟨second, hsecond, hfacts⟩ := (Option.any_eq_true _ _).mp hany
  rw [Bool.and_eq_true, Bool.and_eq_true, decide_eq_true_eq, decide_eq_true_eq, decide_eq_true_eq] at hfacts
  obtain ⟨⟨hzero, hzero'⟩, hne⟩ := hfacts
  have hfirst := toOption_eq_some.mp hfirst
  have hsecond := toOption_eq_some.mp hsecond
  cases hb : compile (fun _ => none) brokenText 0 with
  | ok c =>
    rw [hb] at hbroken
    cases hbroken
  | error e =>
    refine ⟨⟨generationOf first, none, 1⟩, by rw [load, hfirst]; rfl, ?_⟩
    have hreload := reload_of_ok ⟨generationOf first, none, 0⟩ hsecond
    rw [run_append, run_rejected hb, hwrap, run_cons, run_nil, step, hreload]
    exact ⟨hzero'.trans hzero.symm, hne⟩

/-- After 2^64 - 1 of them the counter has come round, and the next configuration gets the number of the first. -/
theorem number_reused : ∃ store, load (fun _ => none) firstText = .ok store ∧
    (run (step (fun _ => none)) store
        (List.replicate (2 ^ 64 - 1) (.reload brokenText) ++ [.reload secondText])).current.generation =
      store.current.generation ∧
    (run (step (fun _ => none)) store
        (List.replicate (2 ^ 64 - 1) (.reload brokenText) ++ [.reload secondText])).current.config ≠
      store.current.config :=
  number_after_rejected (2 ^ 64 - 1) (by decide)

theorem store_two_cells_plain : ∃ store, load (fun _ => none) firstText = .ok store ∧
    (run (step (fun _ => none)) store [.reload secondText, .rollback]).cells =
      (effects (fun _ => none) store [.reload secondText, .rollback]).foldl Cells.apply store.cells := by
  have hok : (compile (fun _ => none) firstText 0).toOption.isSome := by decide +kernel
  obtain ⟨compiled, hsome⟩ := Option.isSome_iff_exists.mp hok
  have hload : load (fun _ => none) firstText = .ok ⟨generationOf compiled, none, 1⟩ := by
    rw [load, toOption_eq_some.mp hsome]
    rfl
  exact ⟨_, hload, (store_two_cells _ firstText _ hload _).1⟩

end ConfigStore

end Pulsate.Conf
