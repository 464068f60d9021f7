import Mathlib.Order.MinMax

/-!
# Edit distance

The distance is defined from the front of both lists. It can be computed from their ends as well, and it is a metric.
-/

namespace Pulsate.Lib

open List

variable {α : Type} [DecidableEq α]

/-- The cost of putting one element for another. -/
def mismatch (x y : α) : Nat := if x = y then 0 else 1

/-- The least number of insertions, deletions and substitutions that make one list the other. -/
def editDistance : List α → List α → Nat
  | [], t => t.length
  | x :: s, [] => (x :: s).length
  | x :: s, y :: t =>
    min (min (editDistance s (y :: t) + 1) (editDistance (x :: s) t + 1)) (editDistance s t + mismatch x y)
termination_by s t => s.length + t.length

@[simp] theorem editDistance_nil_left (t : List α) : editDistance [] t = t.length := by rw [editDistance]

@[simp] theorem editDistance_nil_right (s : List α) : editDistance s [] = s.length := by cases s <;> rw [editDistance]

theorem editDistance_cons (x y : α) (s t : List α) : editDistance (x :: s) (y :: t) =
    min (min (editDistance s (y :: t) + 1) (editDistance (x :: s) t + 1)) (editDistance s t + mismatch x y) := by
  rw [editDistance]

/-! ## A metric -/

theorem mismatch_comm (x y : α) : mismatch x y = mismatch y x := by simp only [mismatch, eq_comm]

theorem mismatch_triangle (x y z : α) : mismatch x z ≤ mismatch x y + mismatch y z := by grind [mismatch]

theorem editDistance_comm (s t : List α) : editDistance s t = editDistance t s := by
  fun_induction editDistance s t with
  | case1 t => simp
  | case2 x s => simp
  | case3 x s y t ih1 ih2 ih3 => rw [ih1, ih2, ih3, mismatch_comm, editDistance_cons, min_comm (_ + 1)]

theorem editDistance_eq_zero {s t : List α} : editDistance s t = 0 ↔ s = t := by
  constructor
  · fun_induction editDistance s t with
    | case1 t => exact fun h => (eq_nil_of_length_eq_zero h).symm
    | case2 x s => exact nofun
    | case3 x s y t ih1 ih2 ih3 =>
      intro h
      have hst : editDistance s t = 0 ∧ mismatch x y = 0 := by omega
      have hxy : x = y := by simpa [mismatch] using hst.2
      rw [hxy, ih3 hst.1]
  · rintro rfl
    induction s with
    | nil => simp
    | cons x s ih => simp [editDistance_cons, ih, mismatch]

theorem editDistance_le_add (s t : List α) : editDistance s t ≤ s.length + t.length := by
  fun_induction editDistance s t with
  | case1 t => simp
  | case2 x s => simp
  | case3 x s y t ih1 ih2 ih3 =>
    simp only [length_cons] at ih1 ⊢
    omega

theorem length_le_add_editDistance (s t : List α) : t.length ≤ s.length + editDistance s t := by
  fun_induction editDistance s t with
  | case1 t => simp
  | case2 x s => simp
  | case3 x s y t ih1 ih2 ih3 =>
    simp only [length_cons] at ih1 ih2 ⊢
    omega

theorem editDistance_triangle (s t u : List α) : editDistance s u ≤ editDistance s t + editDistance t u := by
  induction s generalizing t u with
  | nil =>
    rw [editDistance_nil_left, editDistance_nil_left]
    exact length_le_add_editDistance t u
  | cons x s ihs =>
    induction t generalizing u with
    | nil =>
      rw [editDistance_nil_left, editDistance_nil_right]
      exact editDistance_le_add (x :: s) u
    | cons y t iht =>
      induction u with
      | nil =>
        rw [editDistance_nil_right, editDistance_nil_right, editDistance_comm]
        have h := length_le_add_editDistance (y :: t) (x :: s)
        omega
      | cons z u ihu =>
        -- each pair of first edits, of `s` to `t` and of `t` to `u`, is matched by a shorter triangle
        have hmismatch := mismatch_triangle x y z
        have h1 := ihs (y :: t) (z :: u)
        have h2 := ihs t (z :: u)
        have h3 := ihs t u
        have h4 := iht (z :: u)
        have h5 := iht u
        rw [editDistance_cons x y] at ihu ⊢
        rw [editDistance_cons y z] at h1 ⊢
        rw [editDistance_cons x z] at h4 ⊢
        omega

/-! ## From the ends -/

theorem editDistance_concat_nil (x y : α) (t : List α) : editDistance [x] (t ++ [y]) =
    min (min (editDistance [] (t ++ [y]) + 1) (editDistance [x] t + 1)) (editDistance [] t + mismatch x y) := by
  induction t with
  | nil => rw [nil_append, editDistance_cons]
  | cons b t ih =>
    rw [cons_append, editDistance_cons, ih, editDistance_cons]
    simp only [editDistance_nil_left, length_cons, length_append, length_nil]
    omega

theorem editDistance_concat (x y : α) (s t : List α) : editDistance (s ++ [x]) (t ++ [y]) =
    min (min (editDistance s (t ++ [y]) + 1) (editDistance (s ++ [x]) t + 1)) (editDistance s t + mismatch x y) := by
  induction s generalizing t with
  | nil => exact editDistance_concat_nil x y t
  | cons a s ihs =>
    induction t with
    | nil =>
      have h := editDistance_concat_nil y x (a :: s)
      rw [editDistance_comm, nil_append, h, editDistance_comm [y], mismatch_comm]
      simp only [editDistance_nil_left, editDistance_nil_right]
      omega
    | cons b t iht =>
      have h1 := ihs (b :: t)
      have h2 := ihs t
      rw [cons_append] at h1 iht
      rw [cons_append, cons_append, editDistance_cons a b (s ++ [x]), editDistance_cons a b s,
        editDistance_cons a b s, editDistance_cons a b (s ++ [x]), h1, h2, iht]
      -- both sides are the least of the same nine costs
      simp only [← Nat.add_min_add_right]
      ac_rfl

end Pulsate.Lib
