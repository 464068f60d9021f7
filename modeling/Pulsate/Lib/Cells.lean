import Mathlib.Init

/-!
# A value and the one before it
-/

namespace Pulsate.Lib

structure Cells (α : Type) where
  current : α
  previous : Option α

namespace Cells

variable {α : Type}

inductive Op (α : Type)
  | publish (new : α)
  | swap

/-- A new value moves the current one to the other cell; without a value there, a swap does nothing. -/
def apply (c : Cells α) : Op α → Cells α
  | .publish new => ⟨new, some c.current⟩
  | .swap =>
    match c.previous with
    | none => c
    | some old => ⟨old, some c.current⟩

end Cells

end Pulsate.Lib
