import Pulsate.Config.Compile
import Pulsate.Lib.EditDistance

/-!
# Suggestions

The rows that `levenshtein` keeps are the distances of one prefix of the first string from every prefix of the second.
-/

namespace Pulsate.Conf

open Lib List

/-! ## Rows -/

/-- The values of a function at `done` and, one character at a time, at what follows it. -/
def row (f : Str → Nat) (done : Str) : Str → List Nat
  | [] => [f done]
  | c :: todo => f done :: row f (done ++ [c]) todo

theorem row_ne_nil (f : Str → Nat) (done todo : Str) : ∃ prev, row f done todo = f done :: prev := by
  cases todo <;> exact ⟨_, rfl⟩

theorem getLastD_row (f : Str → Nat) (done todo : Str) : (row f done todo).getLastD 0 = f (done ++ todo) := by
  induction todo generalizing done with
  | nil => rw [append_nil]; rfl
  | cons c todo ih =>
    obtain ⟨prev, hrow⟩ := row_ne_nil f (done ++ [c]) todo
    rw [append_cons, ← ih, row, hrow]
    rfl

theorem row_length (done todo : Str) : row List.length done todo = List.range' done.length (todo.length + 1) := by
  induction todo generalizing done with
  | nil => rfl
  | cons c todo ih =>
    rw [row, ih, length_append]
    rfl

theorem levenshteinRow_eq (a : Str) (ca : Char) (done todo : Str) :
    levenshteinRow ca (editDistance (a ++ [ca]) done) todo (row (editDistance a) done todo) =
      row (editDistance (a ++ [ca])) done todo := by
  induction todo generalizing done with
  | nil => rfl
  | cons cb todo ih =>
    obtain ⟨prev, hrow⟩ := row_ne_nil (editDistance a) (done ++ [cb]) todo
    have hhere : min (min (editDistance a (done ++ [cb]) + 1) (editDistance (a ++ [ca]) done + 1))
        (editDistance a done + if ca = cb then 0 else 1) = editDistance (a ++ [ca]) (done ++ [cb]) :=
      (editDistance_concat ca cb a done).symm
    have hnext := ih (done ++ [cb])
    rw [hrow] at hnext
    rw [row, hrow, levenshteinRow, hhere, hnext, row]

theorem foldl_levenshteinRow (b done todo : Str) :
    (todo.zipIdx done.length).foldl (fun prev p => levenshteinRow p.1 (p.2 + 1) b prev) (row (editDistance done) [] b) =
      row (editDistance (done ++ todo)) [] b := by
  induction todo generalizing done with
  | nil => rw [append_nil]; rfl
  | cons ca todo ih =>
    have hlen : (done ++ [ca]).length = done.length + 1 := length_append
    have hrow := levenshteinRow_eq done ca [] b
    rw [editDistance_nil_right, hlen] at hrow
    have hnext := ih (done ++ [ca])
    rw [hlen] at hnext
    rw [zipIdx_cons, foldl_cons, hrow, hnext, append_assoc]
    rfl

theorem levenshtein_eq_editDistance (a b : Str) : levenshtein a b = editDistance a b := by
  have hfirst : List.range (b.length + 1) = row (editDistance []) [] b := by
    rw [show editDistance ([] : Str) = List.length from funext editDistance_nil_left, row_length, range_eq_range']
    rfl
  rw [levenshtein, hfirst]
  exact (congrArg (List.getLastD · 0) (foldl_levenshteinRow b [] a)).trans (getLastD_row _ [] b)

/-! ## The nearest name -/

/-- The best so far after one more candidate. -/
def better (best : Option (Nat × Str)) (p : Nat × Str) : Option (Nat × Str) :=
  match best with
  | some b => if p.1 < b.1 then some p else best
  | none => some p

/-- One of the candidates with the least key, or nothing if there are none. -/
def IsBest (near : List (Nat × Str)) : Option (Nat × Str) → Prop
  | none => near = []
  | some b => b ∈ near ∧ ∀ p ∈ near, b.1 ≤ p.1

theorem isBest_better {near : List (Nat × Str)} {best : Option (Nat × Str)} (h : IsBest near best) (p : Nat × Str) :
    IsBest (near ++ [p]) (better best p) := by
  cases best with
  | none =>
    cases h
    exact ⟨mem_cons_self, by simp⟩
  | some b =>
    obtain ⟨hb, hleast⟩ := h
    dsimp only [better]
    split
    next hlt =>
      refine ⟨mem_concat_self, fun q hq => ?_⟩
      rcases mem_append.mp hq with hq | hq
      · exact hlt.le.trans (hleast q hq)
      · exact (congrArg Prod.fst (mem_singleton.mp hq)).ge
    next hle =>
      refine ⟨mem_append_left _ hb, fun q hq => ?_⟩
      rcases mem_append.mp hq with hq | hq
      · exact hleast q hq
      · rw [mem_singleton.mp hq]
        exact not_lt.mp hle

theorem isBest_foldl (near : List (Nat × Str)) : IsBest near (near.foldl better none) := by
  induction near using List.reverseRecOn with
  | nil => rfl
  | append_singleton near p ih =>
    rw [foldl_append]
    exact isBest_better ih p

/-- What a suggestion has to be: a defined name at the least distance, if that is at most 2. -/
def IsNearest (name : Str) (defined : List Str) : Option Str → Prop
  | none => ∀ m ∈ defined, 2 < editDistance name m
  | some n => n ∈ defined ∧ editDistance name n ≤ 2 ∧ ∀ m ∈ defined, editDistance name n ≤ editDistance name m

theorem nearest_isNearest (name : Str) (defined : List Str) : IsNearest name defined (nearest name defined) := by
  have hmem : ∀ m d, (d, m) ∈ (defined.map (fun n => (levenshtein name n, n))).filter (fun p => p.1 ≤ 2) ↔
      m ∈ defined ∧ d = editDistance name m ∧ editDistance name m ≤ 2 := by
    intro m d
    simp only [levenshtein_eq_editDistance, mem_filter, mem_map, Prod.mk.injEq, decide_eq_true_eq]
    grind
  have hbest := isBest_foldl ((defined.map (fun n => (levenshtein name n, n))).filter (fun p => p.1 ≤ 2))
  show IsNearest name defined ((List.foldl better none _).map (·.2))
  generalize List.filter _ _ = near at hmem hbest ⊢
  cases hfold : near.foldl better none with
  | none =>
    rw [hfold] at hbest
    intro m hm
    by_contra hle
    have := (hmem m _).mpr ⟨hm, rfl, not_lt.mp hle⟩
    rw [show near = [] from hbest] at this
    cases this
  | some b =>
    rw [hfold] at hbest
    obtain ⟨d, n⟩ := b
    obtain ⟨hn, rfl, hle⟩ := (hmem n d).mp hbest.1
    refine ⟨hn, hle, fun m hm => ?_⟩
    by_cases hm2 : editDistance name m ≤ 2
    · exact hbest.2 _ ((hmem m _).mpr ⟨hm, rfl, hm2⟩)
    · exact hle.trans (not_le.mp hm2).le

/-- The distance is the least number of edits, and so a metric, and a suggestion is truly nearest. -/
theorem suggestions_nearest :
    (∀ a b, levenshtein a b = editDistance a b) ∧ (∀ a b, levenshtein a b = levenshtein b a) ∧
      (∀ a b, levenshtein a b = 0 ↔ a = b) ∧ (∀ a b c, levenshtein a c ≤ levenshtein a b + levenshtein b c) ∧
      ∀ name defined, IsNearest name defined (nearest name defined) := by
  simp only [levenshtein_eq_editDistance, implies_true, true_and]
  exact ⟨editDistance_comm, fun _ _ => editDistance_eq_zero, editDistance_triangle, nearest_isNearest⟩

end Pulsate.Conf
