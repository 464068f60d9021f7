import Mathlib.Algebra.GroupWithZero.Nat
import Mathlib.Algebra.Group.Int.Defs

/-!
# Time

An `Instant` is a number of nanoseconds on the monotonic clock, and the time elapsed between two of them the difference, which is
zero where the later one reads less.
-/

namespace Pulsate

/-- An `Instant` counts seconds as a signed number of 64 bits: a sum that comes to this many nanoseconds panics. -/
def instantEnd : Nat := 2 ^ 63 * 10 ^ 9

/-- `std::time::Duration`, in nanoseconds. -/
structure Duration where
  nanos : Nat
  bounded : nanos < 2 ^ 64 * 10 ^ 9
  deriving DecidableEq, Repr

namespace Duration

def zero : Duration := ⟨0, by decide⟩

/-- `Duration::from_secs`. -/
def fromSecs (secs : UInt64) : Duration :=
  ⟨secs.toNat * 10 ^ 9, Nat.mul_lt_mul_of_pos_right secs.toNat_lt (by decide)⟩

/-- The sum, or nothing where the addition panics. -/
def checkedAdd (a b : Duration) : Option Duration :=
  if h : a.nanos + b.nanos < 2 ^ 64 * 10 ^ 9 then some ⟨a.nanos + b.nanos, h⟩ else none

/-- `Duration::as_secs`, of a number of nanoseconds. -/
def asSecs (nanos : Nat) : Nat := nanos / 10 ^ 9

end Duration

end Pulsate
