import Mathlib.Logic.Function.Basic
import Pulsate.Config.Cells

/-!
# Calls of the store that overlap

`reload` and `rollback` take no lock: other calls can come between any two of their accesses to the atomics. Here a call
makes one access at a time, and a schedule says which call is next.
-/

namespace Pulsate.Conf.Concurrent

open ConfigStore (Call)

/-- An `Arc` of a generation, told apart by the call that made it; none made the ones that were there before. -/
structure Shared (ι : Type) where
  maker : Option ι
  value : Generation
  deriving DecidableEq, Repr

/-- How far a call is. What a published generation replaced is recorded for the statements below only. -/
inductive Progress (ι : Type)
  | start
  | numbered (number : UInt64)
  | compiled (new : Generation)
  | loaded (new : Generation) (outgoing : Shared ι)
  | demoted (new : Generation) (outgoing : Shared ι)
  | published (new : Generation) (replaced : Shared ι)
  | rejected (e : CompileError)
  | found (previous : Shared ι)
  | ready (previous outgoing : Shared ι)
  | restored (previous outgoing : Shared ι)
  | rolledBack (result : Option (Shared ι))
  deriving DecidableEq, Repr

structure World (ι : Type) where
  current : Shared ι
  previous : Option (Shared ι)
  nextGeneration : UInt64
  progress : ι → Progress ι

variable {ι : Type} [DecidableEq ι]

/-- A store that nobody is calling. -/
def World.init (store : ConfigStore) : World ι :=
  ⟨⟨none, store.current⟩, store.previous.map (⟨none, ·⟩), store.nextGeneration, fun _ => .start⟩

def World.store (w : World ι) : ConfigStore := ⟨w.current.value, w.previous.map (·.value), w.nextGeneration⟩

def World.goes (w : World ι) (i : ι) (p : Progress ι) : World ι := { w with progress := Function.update w.progress i p }

/-- The next access of a call; a call that has returned makes none. -/
def World.step (env : Str → Option Str) (calls : ι → Call) (w : World ι) (i : ι) : World ι :=
  match w.progress i with
  | .start =>
    match calls i with
    | .reload _ => { w.goes i (.numbered w.nextGeneration) with nextGeneration := w.nextGeneration + 1 }
    | .rollback =>
      match w.previous with
      | none => w.goes i (.rolledBack none)
      | some previous => w.goes i (.found previous)
  | .numbered number =>
    match calls i with
    | .reload text =>
      match compile env text number.toNat with
      | .error e => w.goes i (.rejected e)
      | .ok compiled => w.goes i (.compiled (generationOf compiled))
    | .rollback => w
  | .compiled new => w.goes i (.loaded new w.current)
  | .loaded new outgoing => { w.goes i (.demoted new outgoing) with previous := some outgoing }
  | .demoted new _ => { w.goes i (.published new w.current) with current := ⟨some i, new⟩ }
  | .found previous => w.goes i (.ready previous w.current)
  | .ready previous outgoing => { w.goes i (.restored previous outgoing) with current := previous }
  | .restored previous outgoing => { w.goes i (.rolledBack (some previous)) with previous := some outgoing }
  | .published _ _ | .rejected _ | .rolledBack _ => w

/-- The call has returned, or not been made. -/
def Progress.Idle : Progress ι → Prop
  | .start | .published _ _ | .rejected _ | .rolledBack _ => True
  | _ => False

instance decidableIdle (p : Progress ι) : Decidable p.Idle := by
  unfold Progress.Idle
  split <;> infer_instance

/-- The call has loaded the current generation and has yet to replace it. -/
def Progress.Holds (p : Progress ι) (outgoing : Shared ι) : Prop :=
  ∃ new, p = .loaded new outgoing ∨ p = .demoted new outgoing

/-! ## No update is lost -/

/-- The current generation is that of the successful reload with the highest number, and `previous` is what it replaced.
If no reload succeeded, both are as before. -/
def Wins (before after : World ι) (previous : Option (Shared ι)) : Prop :=
  ((∀ i new replaced, after.progress i ≠ .published new replaced) ∧
    after.current = before.current ∧ previous = before.previous) ∨
  ∃ i new replaced, after.progress i = .published new replaced ∧ after.current = ⟨some i, new⟩ ∧
    previous = some replaced ∧
    ∀ j new' replaced', after.progress j = .published new' replaced' → j = i ∨ new'.generation < new.generation

def LastWins (before after : World ι) : Prop := Wins before after after.previous

/-- If the access publishes a generation, then all generations published so far have smaller numbers, and no other call
has loaded the current generation without having replaced it. -/
def InTurn (w : World ι) (i : ι) : Prop :=
  ∀ new outgoing, w.progress i = .demoted new outgoing →
    (∀ j new' replaced, w.progress j = .published new' replaced → new'.generation < new.generation) ∧
    ∀ j, j ≠ i → ∀ other, ¬ (w.progress j).Holds other

end Pulsate.Conf.Concurrent
