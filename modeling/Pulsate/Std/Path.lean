import Mathlib.Data.List.Infix
import Pulsate.Std.Str

/-!
# Paths (`std::path` on Unix)
-/

namespace Pulsate

open List

namespace Str

/-- `str::replace`: the occurrences of a text that is not empty, from the left. -/
def replaceFrom (pat by_ : Str) : Nat → Str → Str
  | _, [] => []
  | skip + 1, _ :: s => replaceFrom pat by_ skip s
  | 0, c :: s => if pat.isPrefixOf (c :: s) then by_ ++ replaceFrom pat by_ (pat.length - 1) s else c :: replaceFrom pat by_ 0 s

def replace (s pat by_ : Str) : Str := replaceFrom pat by_ 0 s

/-- `rsplit_once` at a character. -/
def rsplitOnce (s : Str) (c : Char) : Option (Str × Str) :=
  if c ∈ s then some ((s.rdropWhile (· ≠ c)).dropLast, s.rtakeWhile (· ≠ c)) else none

def trimStartMatches (s : Str) (c : Char) : Str := s.dropWhile (· == c)

end Str

namespace Path

inductive Component
  | rootDir
  | curDir
  | parentDir
  | normal (c : Str)
  deriving DecidableEq, Repr

/-- What stands between two separators; nothing and `.` are passed over. -/
def component (piece : Str) : Option Component :=
  if piece = [] ∨ piece = ['.'] then none else if piece = ['.', '.'] then some .parentDir else some (.normal piece)

/-- What stands in front: the root, or the `.` that a relative path begins with. -/
def front (p : Str) : List Component :=
  if p.head? = some '/' then [.rootDir] else if (p.splitOn '/').head? = some ['.'] then [.curDir] else []

def components (p : Str) : List Component := front p ++ (p.splitOn '/').filterMap component

def push (p c : Str) : Str :=
  if c.head? = some '/' then c else if p = [] ∨ p.getLast? = some '/' then p ++ c else p ++ '/' :: c

def fileName (p : Str) : Option Str :=
  match (components p).getLast? with
  | some (.normal c) => some c
  | _ => none

/-- A name that has its only dot in front has no extension. -/
def extension (p : Str) : Option Str :=
  (fileName p).bind (fun name => (name.rsplitOnce '.').bind (fun parts => if parts.1 = [] then none else some parts.2))

/-! ## Components -/

/-- One component of a path that is neither `.` nor `..`. -/
structure IsNormal (c : Str) : Prop where
  nonempty : c ≠ []
  notCur : c ≠ ['.']
  notParent : c ≠ ['.', '.']
  slash : '/' ∉ c

theorem not_mem_of_mem_splitOn {c : Char} {s piece : Str} (h : piece ∈ s.splitOn c) : c ∉ piece := by
  induction s generalizing piece with
  | nil =>
    cases mem_singleton.mp h
    exact not_mem_nil
  | cons d s ih =>
    rw [splitOn_cons_eq_if_modifyHead] at h
    split at h
    · rcases mem_cons.mp h with rfl | h
      · exact not_mem_nil
      · exact ih h
    · rename_i hd
      cases hs : s.splitOn c with
      | nil => exact absurd hs (splitOn_ne_nil _ _)
      | cons first pieces =>
        rw [hs] at h ih
        rcases mem_cons.mp h with rfl | h
        · simp only [mem_cons, not_or]
          exact ⟨fun hc => hd (by simp [hc]), ih mem_cons_self⟩
        · exact ih (mem_cons_of_mem _ h)

theorem component_of_isNormal {c : Str} (h : IsNormal c) : component c = some (.normal c) := by
  simp [component, h.nonempty, h.notCur, h.notParent]

theorem mem_components {p : Str} (h : p.head? ≠ some '/') {comp : Component} (hcomp : comp ∈ components p) :
    comp = .curDir ∨ comp = .parentDir ∨ ∃ c, comp = .normal c ∧ IsNormal c := by
  rw [components, front, if_neg h] at hcomp
  rcases mem_append.mp hcomp with hfront | hpieces
  · split at hfront
    · exact .inl (mem_singleton.mp hfront)
    · cases hfront
  · obtain ⟨piece, hpiece, hcomponent⟩ := mem_filterMap.mp hpieces
    unfold component at hcomponent
    split at hcomponent
    · cases hcomponent
    · rename_i hne
      split at hcomponent
      · cases hcomponent
        exact .inr (.inl rfl)
      · rename_i hparent
        cases hcomponent
        rw [not_or] at hne
        exact .inr (.inr ⟨piece, rfl, hne.1, hne.2, hparent, not_mem_of_mem_splitOn hpiece⟩)

/-! ## Pushing a name -/

theorem head?_of_isNormal {c : Str} (h : IsNormal c) : c.head? ≠ some '/' := by
  intro hc
  exact h.slash (mem_of_head? hc)

theorem splitOn_push {p c : Str} (hp : p ≠ []) (hc : IsNormal c) :
    ∃ front, ((p.splitOn '/' = front ++ [[]] ∧ front ≠ []) ∨ p.splitOn '/' = front) ∧ (push p c).splitOn '/' = front ++ [c] := by
  rw [push, if_neg (head?_of_isNormal hc)]
  by_cases hlast : p.getLast? = some '/'
  · obtain ⟨q, rfl⟩ := getLast?_eq_some_iff.mp hlast
    refine ⟨q.splitOn '/', .inl ⟨?_, splitOn_ne_nil _ _⟩, ?_⟩
    · rw [splitOn_append_cons_self]
      rfl
    · rw [if_pos (.inr hlast), append_assoc, singleton_append, splitOn_append_cons_self,
        splitOn_eq_singleton hc.slash]
  · refine ⟨p.splitOn '/', .inr rfl, ?_⟩
    rw [if_neg (by simp [hp, hlast]), splitOn_append_cons_self, splitOn_eq_singleton hc.slash]

theorem head?_push {p c : Str} (hp : p ≠ []) (hc : IsNormal c) : (push p c).head? = p.head? := by
  rw [push, if_neg (head?_of_isNormal hc)]
  split
  · exact head?_append_of_ne_nil p hp
  · exact head?_append_of_ne_nil p hp

theorem components_push (p : Str) {c : Str} (hc : IsNormal c) : components (push p c) = components p ++ [.normal c] := by
  by_cases hp : p = []
  · subst hp
    have hpush : push [] c = c := by simp [push]
    have hfront : front c = [] := by
      simp [front, head?_of_isNormal hc, splitOn_eq_singleton hc.slash, hc.notCur]
    have hnil : components [] = [] := by decide
    rw [hpush, hnil, components, hfront, splitOn_eq_singleton hc.slash]
    simp [component_of_isNormal hc]
  · obtain ⟨pieces, hpieces, hpush⟩ := splitOn_push hp hc
    have hne : p.splitOn '/' ≠ [] := splitOn_ne_nil _ _
    have hhead : ((push p c).splitOn '/').head? = (p.splitOn '/').head? := by
      rw [hpush]
      rcases hpieces with ⟨hsplit, hnil⟩ | hsplit
      · rw [hsplit, head?_append_of_ne_nil _ hnil, head?_append_of_ne_nil _ hnil]
      · rw [← hsplit]
        exact head?_append_of_ne_nil _ hne
    have hfront : front (push p c) = front p := by
      rw [front, front, head?_push hp hc, hhead]
    rw [components, components, hfront, hpush, filterMap_append, append_assoc]
    congr 1
    rcases hpieces with ⟨hsplit, -⟩ | hsplit
    · have hnil : component [] = none := rfl
      rw [hsplit]
      simp [component_of_isNormal hc, hnil]
    · rw [hsplit]
      simp [component_of_isNormal hc]

theorem components_foldl_push (root : Str) {names : List Str} (h : ∀ c ∈ names, IsNormal c) :
    components (names.foldl push root) = components root ++ names.map .normal := by
  induction names generalizing root with
  | nil => simp
  | cons c names ih =>
    rw [foldl_cons, ih (push root c) (fun d hd => h d (mem_cons_of_mem _ hd)),
      components_push root (h c mem_cons_self)]
    simp

end Path

end Pulsate
