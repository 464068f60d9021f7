import Mathlib.Algebra.GroupWithZero.Nat
import Mathlib.Algebra.Order.BigOperators.Group.List
import Mathlib.Algebra.Order.Group.Nat
import Pulsate.Lib.Run

/-!
# Buffer pools (`pulsate-util::pool`)

A pool hands out byte buffers and takes them back, up to a number of them and up to a size.
-/

namespace Pulsate.Util

open Lib List

/-! ## Buffers -/

/-- The contents of a buffer, and how much it holds without a new allocation. -/
structure BytesMut where
  contents : List UInt8
  capacity : Nat
  fits : contents.length ≤ capacity

def BytesMut.clear (buf : BytesMut) : BytesMut := ⟨[], buf.capacity, Nat.zero_le _⟩

/-- What is allocated where some capacity is asked for: at least that much. -/
structure Allocator where
  capacity : Nat → Nat
  enough : ∀ n, n ≤ capacity n

def Allocator.withCapacity (alloc : Allocator) (n : Nat) : BytesMut := ⟨[], alloc.capacity n, Nat.zero_le _⟩

/-! ## Pools -/

structure BufferPool where
  free : List BytesMut
  bufCapacity : Nat
  maxRetained : Nat

namespace BufferPool

def new (bufCapacity maxRetained : Nat) : BufferPool := ⟨[], bufCapacity, maxRetained⟩

def take (alloc : Allocator) (pool : BufferPool) : BytesMut × BufferPool :=
  match pool.free.getLast? with
  | some buf => (buf.clear, { pool with free := pool.free.dropLast })
  | none => (alloc.withCapacity pool.bufCapacity, pool)

def give (pool : BufferPool) (buf : BytesMut) : BufferPool :=
  if pool.free.length < pool.maxRetained ∧ buf.capacity ≤ pool.bufCapacity then { pool with free := pool.free ++ [buf] }
  else pool

def retained (pool : BufferPool) : Nat := pool.free.length

end BufferPool

inductive Call
  | take
  | give (buf : BytesMut)

def BufferPool.step (alloc : Allocator) (pool : BufferPool) : Call → BufferPool
  | .take => (pool.take alloc).2
  | .give buf => pool.give buf

/-! ## Bounds -/

/-- What a pool keeps is bounded in number and in size. -/
structure BufferPool.Bounded (pool : BufferPool) : Prop where
  retained : pool.retained ≤ pool.maxRetained
  total : (pool.free.map (·.capacity)).sum ≤ pool.maxRetained * pool.bufCapacity

/-- A buffer that is taken is empty and as large as the pool promises. -/
def Serves (alloc : Allocator) (pool : BufferPool) : Call → Prop
  | .take => (pool.take alloc).1.contents = [] ∧ pool.bufCapacity ≤ (pool.take alloc).1.capacity
  | .give _ => True

/-- A buffer that is given back where there is room is no smaller than those the pool makes. -/
def Restores (pool : BufferPool) : Call → Prop
  | .take => True
  | .give buf => pool.retained < pool.maxRetained → pool.bufCapacity ≤ buf.capacity

variable {alloc : Allocator} {pool : BufferPool}

/-- All that a call can do to a pool. -/
inductive Steps (pool : BufferPool) : Call → BufferPool → Prop
  | reused {buf : BytesMut} {rest : List BytesMut} (hfree : pool.free = rest ++ [buf]) :
      Steps pool .take { pool with free := rest }
  | made (hfree : pool.free = []) : Steps pool .take pool
  | kept {buf : BytesMut} (hroom : pool.retained < pool.maxRetained) (hsize : buf.capacity ≤ pool.bufCapacity) :
      Steps pool (.give buf) { pool with free := pool.free ++ [buf] }
  | dropped {buf : BytesMut} : Steps pool (.give buf) pool

theorem steps (alloc : Allocator) (pool : BufferPool) (call : Call) : Steps pool call (pool.step alloc call) := by
  cases call with
  | take =>
    dsimp only [BufferPool.step, BufferPool.take]
    split
    next buf hlast => exact .reused (dropLast_append_getLast? buf hlast).symm
    next hnone => exact .made (getLast?_eq_none_iff.mp hnone)
  | give buf =>
    dsimp only [BufferPool.step, BufferPool.give]
    split
    next h => exact .kept h.1 h.2
    next => exact .dropped

/-- No buffer that is kept is larger than those the pool makes. -/
structure Tidy (pool : BufferPool) : Prop where
  retained : pool.retained ≤ pool.maxRetained
  sizes : ∀ buf ∈ pool.free, buf.capacity ≤ pool.bufCapacity

theorem Tidy.bounded (h : Tidy pool) : pool.Bounded := by
  refine ⟨h.retained, ?_⟩
  calc (pool.free.map (·.capacity)).sum
      _ ≤ (pool.free.map (·.capacity)).length • pool.bufCapacity :=
        sum_le_card_nsmul _ _ (forall_mem_map.mpr h.sizes)
      _ = pool.free.length * pool.bufCapacity := by rw [length_map, Nat.nsmul_eq_mul]
      _ ≤ pool.maxRetained * pool.bufCapacity := Nat.mul_le_mul_right _ h.retained

theorem tidy_step (alloc : Allocator) (pool : BufferPool) (call : Call) (h : Tidy pool) : Tidy (pool.step alloc call) := by
  have hstep := steps alloc pool call
  generalize pool.step alloc call = pool' at hstep ⊢
  cases hstep with
  | reused hfree =>
    obtain ⟨hretained, hsizes⟩ := h
    rw [BufferPool.retained, hfree, length_append] at hretained
    exact ⟨Nat.le_of_succ_le hretained, fun buf hbuf => hsizes buf (hfree ▸ mem_append_left _ hbuf)⟩
  | made => exact h
  | kept hroom hsize =>
    refine ⟨(length_append ..).trans_le hroom, fun buf hbuf => ?_⟩
    rcases mem_append.mp hbuf with hbuf | hbuf
    · exact h.sizes buf hbuf
    · rw [mem_singleton.mp hbuf]
      exact hsize
  | dropped => exact h

/-! ## Promises -/

/-- No buffer that is kept is smaller than those the pool makes. -/
def Ample (pool : BufferPool) : Prop := ∀ buf ∈ pool.free, pool.bufCapacity ≤ buf.capacity

theorem Ample.step {call : Call} (h : Ample pool) (hrestores : Restores pool call) : Ample (pool.step alloc call) := by
  have hstep := steps alloc pool call
  generalize pool.step alloc call = pool' at hstep ⊢
  cases hstep with
  | reused hfree => exact fun buf hbuf => h buf (hfree ▸ mem_append_left _ hbuf)
  | made => exact h
  | kept hroom =>
    intro buf hbuf
    rcases mem_append.mp hbuf with hbuf | hbuf
    · exact h buf hbuf
    · rw [mem_singleton.mp hbuf]
      exact hrestores hroom
  | dropped => exact h

theorem Ample.serves (h : Ample pool) (call : Call) : Serves alloc pool call := by
  cases call with
  | give buf => trivial
  | take =>
    dsimp only [Serves, BufferPool.take]
    split
    next buf hlast => exact ⟨rfl, h buf (mem_of_getLast? hlast)⟩
    next => exact ⟨rfl, alloc.enough _⟩

theorem Ample.run {calls : List Call} (h : Ample pool) (hrestores : Permits Restores (BufferPool.step alloc) pool calls) :
    Permits (Serves alloc) (BufferPool.step alloc) pool calls := by
  induction calls generalizing pool with
  | nil => trivial
  | cons call calls ih => exact ⟨h.serves call, ih (h.step hrestores.1) hrestores.2⟩

/-- In every run a pool stays within its bounds. If no buffer that is kept is smaller than those the pool makes, everything it
hands out is empty and as large as promised. -/
theorem pool_serves (alloc : Allocator) (bufCapacity maxRetained : Nat) (calls : List Call) :
    (run (BufferPool.step alloc) (.new bufCapacity maxRetained) calls).Bounded ∧
      (Permits Restores (BufferPool.step alloc) (.new bufCapacity maxRetained) calls →
        Permits (Serves alloc) (BufferPool.step alloc) (.new bufCapacity maxRetained) calls) := by
  have hnew : Tidy (.new bufCapacity maxRetained) := ⟨Nat.zero_le _, fun _ hbuf => nomatch hbuf⟩
  exact ⟨(run_invariant (tidy_step alloc) hnew calls).bounded, Ample.run (fun _ hbuf => nomatch hbuf)⟩

/-- An allocator that gives what it is asked for. -/
def exactly : Allocator := ⟨id, fun _ => le_rfl⟩

theorem pool_serves_reused :
    Permits (Serves exactly) (BufferPool.step exactly) (.new 2 1) [.take, .give ⟨[0], 2, by decide⟩, .take] :=
  (pool_serves exactly 2 1 _).2 ⟨trivial, fun _ => le_rfl, trivial, trivial⟩

/-- A small buffer is kept and handed out. -/
theorem small_buffer_served :
    ¬ Permits (Serves exactly) (BufferPool.step exactly) (.new 2 1) [.give ⟨[], 0, le_rfl⟩, .take] := by
  rintro ⟨-, ⟨-, hsize⟩, -⟩
  exact absurd hsize (by decide)

end Pulsate.Util
