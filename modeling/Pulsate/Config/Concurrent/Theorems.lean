import Mathlib.Data.List.FinRange
import Pulsate.Config.Concurrent.Order

/-!
# Results about overlapping reloads
-/

namespace Pulsate.Conf.Concurrent

open Lib Option List
open ConfigStore (Call)

variable {ι : Type} [DecidableEq ι]

/-! ## One call at a time -/

/-- Calls that are made one after another, each with all its accesses, do what they do to the sequential store. -/
theorem sequential_calls (env : Str → Option Str) (store : ConfigStore) (calls : List Call) :
    (run (World.step env calls.get) (World.init store)
      ((finRange calls.length).flatMap fun i => replicate (accesses (calls.get i)) i)).store =
      run (ConfigStore.step env) store calls := by
  have hstore : (World.init store : World (Fin calls.length)).store = store := by
    simp [World.init, World.store, Function.comp_def]
  rw [store_in_turn (nodup_finRange _) (fun _ _ => rfl), hstore, map_get_finRange]

/-! ## Any order -/

/-- However reloads and rollbacks are interleaved, no configuration is ever live, kept or returned that is put together from
several: each was there before, or is what the text of one reload compiles to. -/
theorem always_whole (env : Str → Option Str) (calls : ι → Call) (store : ConfigStore) (schedule : List ι) :
    Whole env calls store (run (World.step env calls) (World.init store) schedule) := by
  have hcurrent : Genuine env calls store (World.init store).current := Or.inl rfl
  have hprevious : ∀ s ∈ (World.init store : World ι).previous, Genuine env calls store s := by
    intro s hs
    obtain ⟨generation, hprevious, rfl⟩ := map_eq_some_iff.mp hs
    exact Or.inr hprevious.symm
  exact run_invariant whole_step ⟨hcurrent, hprevious, fun _ => trivial⟩ schedule

/-! ## Reloads in turn -/

/-- When reloads publish in turn and all have returned, no update is lost. -/
theorem last_reload_wins (env : Str → Option Str) (calls : ι → Call) (hcalls : ∀ i, ∃ text, calls i = .reload text)
    (store : ConfigStore) (schedule : List ι)
    (hturn : Lib.Permits InTurn (World.step env calls) (World.init store) schedule)
    (hreturned : ∀ i, ((Lib.run (World.step env calls) (World.init store) schedule).progress i).Idle) :
    LastWins (World.init store) (Lib.run (World.step env calls) (World.init store) schedule) := by
  have hordered : Ordered (World.init store) (Lib.run (World.step env calls) (World.init store) schedule) :=
    history_invariant (I := fun _ w => Ordered (World.init store) w) (ordered_init store)
      (fun es i hp h => ordered_step hcalls h (permits_concat.mp hp).2) schedule hturn
  obtain ⟨previous, hwins, hlast⟩ := hordered.wins
  rcases hlast with ⟨j, new, outgoing, hj⟩ | hlast
  · have hidle := hreturned j
    rw [hj] at hidle
    cases hidle
  · rw [← hlast] at hwins
    exact hwins

/-! ## Reloads out of turn -/

section Overtaken

variable {env : Str → Option Str} {first second : Str}

def emptyStore : ConfigStore := ⟨⟨Config.empty, 0⟩, none, 1⟩

def twoReloads (first second : Str) : Bool → Call
  | false => .reload first
  | true => .reload second

/-- The first call takes its number and compiles; then the second one runs, then the rest of the first. -/
def overtaken (env : Str → Option Str) (first second : Str) : World Bool :=
  Lib.run (World.step env (twoReloads first second)) (World.init emptyStore)
    [false, false, true, true, true, true, true, false, false, false]

theorem overtaken_spec {c c' : Compiled} (h : compile env first 1 = .ok c) (h' : compile env second 2 = .ok c') :
    (overtaken env first second).current = ⟨some false, generationOf c⟩ ∧
      (overtaken env first second).progress false = .published (generationOf c) ⟨some true, generationOf c'⟩ ∧
      (overtaken env first second).progress true = .published (generationOf c') ⟨none, emptyStore.current⟩ := by
  simp [overtaken, Lib.run, World.step, World.init, World.goes, twoReloads, emptyStore, h, h']

def oldText : Str := "site a.test \x7b\n  route /* ~> respond(status=200)\n\x7d\n"

def newText : Str := "site b.test \x7b\n  route /* ~> respond(status=200)\n\x7d\n"

/-- The second reload has the higher number and has returned, yet the generation of the first is current. -/
theorem later_reload_lost : ConfigStore.load (fun _ => none) [] = .ok emptyStore ∧
    (∀ i, ((overtaken (fun _ => none) oldText newText).progress i).Idle) ∧
    (overtaken (fun _ => none) oldText newText).current.maker = some false ∧
    ¬ LastWins (World.init emptyStore) (overtaken (fun _ => none) oldText newText) := by
  have hload : (ConfigStore.load (fun _ => none) []).toOption = some emptyStore := by decide +kernel
  have hold : (compile (fun _ => none) oldText 1).toOption.isSome := by decide +kernel
  have hnew : (compile (fun _ => none) newText 2).toOption.isSome := by decide +kernel
  obtain ⟨c, hc⟩ := isSome_iff_exists.mp hold
  obtain ⟨c', hc'⟩ := isSome_iff_exists.mp hnew
  have hc := toOption_eq_some.mp hc
  have hc' := toOption_eq_some.mp hc'
  obtain ⟨hcur, hfalse, htrue⟩ := overtaken_spec hc hc'
  obtain ⟨ast, -, rfl, -⟩ := compile_inv hc
  obtain ⟨ast', -, rfl, -⟩ := compile_inv hc'
  refine ⟨toOption_eq_some.mp hload, fun i => ?_, congrArg Shared.maker hcur, ?_⟩
  · cases i with
    | false => rw [hfalse]; trivial
    | true => rw [htrue]; trivial
  · rintro (⟨hnone, -⟩ | ⟨i, new, replaced, hi, hcur', -, hmax⟩)
    · exact hnone _ _ _ htrue
    · cases hcur.symm.trans hcur'
      rcases hmax _ _ _ htrue with h | h
      · cases h
      · exact absurd h (by decide : ¬ 2 < 1)

/-- Whether the next access of one of two calls is in turn. -/
def comesInTurn (w : World Bool) (i : Bool) : Bool :=
  match w.progress i, w.progress !i with
  | .demoted new _, .published new' _ => new'.generation < new.generation
  | .demoted _ _, .loaded _ _ | .demoted _ _, .demoted _ _ => false
  | _, _ => true

theorem inTurn_of_comesInTurn {w : World Bool} {i : Bool} (h : comesInTurn w i) : InTurn w i := by
  intro new outgoing hp
  rw [comesInTurn, hp] at h
  refine ⟨fun j new' replaced hj => ?_, fun j hne other hholds => ?_⟩
  · by_cases hne : j = i
    · cases hp.symm.trans (hne ▸ hj)
    · rw [← Bool.eq_not_of_ne hne, hj] at h
      exact of_decide_eq_true h
  · obtain ⟨new', hj | hj⟩ := hholds <;> rw [← Bool.eq_not_of_ne hne, hj] at h <;> cases h

/-- Both calls take their numbers and compile by turns; then each loads the current generation and replaces it. -/
def byTurns : List Bool := [false, true, true, false, false, false, false, true, true, true]

theorem last_reload_wins_two : LastWins (World.init emptyStore)
    (Lib.run (World.step (fun _ => none) (twoReloads oldText newText)) (World.init emptyStore) byTurns) := by
  have hturn : Lib.Permits (fun w i => comesInTurn w i) (World.step (fun _ => none) (twoReloads oldText newText))
      (World.init emptyStore) byTurns := by decide +kernel
  refine last_reload_wins _ _ (fun i => by cases i <;> exact ⟨_, rfl⟩) emptyStore byTurns ?_ (by decide +kernel)
  exact hturn.imp (fun _ _ _ _ => inTurn_of_comesInTurn)

end Overtaken

end Pulsate.Conf.Concurrent
