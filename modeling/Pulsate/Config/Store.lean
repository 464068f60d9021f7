import Pulsate.Config.Compile

/-!
# The live store (`pulsate-config::store`)
-/

namespace Pulsate.Conf

structure Generation where
  config : Config
  generation : Nat
  deriving DecidableEq, Repr

structure ConfigStore where
  current : Generation
  previous : Option Generation
  nextGeneration : UInt64
  deriving DecidableEq, Repr

def generationOf (c : Compiled) : Generation := ⟨c.config, c.generation⟩

namespace ConfigStore

variable (env : Str → Option Str)

def load (text : Str) : Except CompileError ConfigStore :=
  (compile env text 0).map (fun compiled => ⟨generationOf compiled, none, 1⟩)

/-- The number is taken first, also for a text that is then rejected. -/
def reload (store : ConfigStore) (text : Str) : Except CompileError Generation × ConfigStore :=
  let number := store.nextGeneration
  let store := { store with nextGeneration := number + 1 }
  match compile env text number.toNat with
  | .error e => (.error e, store)
  | .ok compiled =>
    (.ok (generationOf compiled),
      { store with current := generationOf compiled, previous := some store.current })

/-- The current generation becomes the previous one, so that a rollback can be undone. -/
def rollback (store : ConfigStore) : Option Generation × ConfigStore :=
  match store.previous with
  | none => (none, store)
  | some restored => (some restored, { store with current := restored, previous := some store.current })

inductive Call
  | reload (text : Str)
  | rollback
  deriving DecidableEq, Repr

def step (store : ConfigStore) : Call → ConfigStore
  | .reload text => (store.reload env text).2
  | .rollback => store.rollback.2

end ConfigStore

end Pulsate.Conf
