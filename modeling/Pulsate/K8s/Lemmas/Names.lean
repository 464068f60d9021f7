import Pulsate.Flow.Lemmas.Value
import Pulsate.K8s.Lemmas.Placement

/-!
# Upstream names

Sanitising maps `-` and `.` to `_`, which also joins the parts of an upstream's name. The name thus
remembers the rule index and the string `namespace/name` up to these three characters, and no more.
-/

namespace Pulsate.K8s

open List Str

/-- A DNS subdomain: labels joined by dots. -/
def isDnsSubdomain (s : Str) : Bool := s.len ≤ 253 && (s.splitOn '.').all isDnsLabel

/-- The characters that sanitising and joining do not tell apart. -/
def blur (s : Str) : Str := s.map (fun c => if c = '/' ∨ c = '-' ∨ c = '.' then '_' else c)

/-- `namespace/name`. -/
def Emitted.path (e : Emitted) : Str := e.ns ++ '/' :: e.name

def isNameChar (c : Char) : Bool := c.isLower || c.isDigit || c == '-' || c == '.'

theorem isNameChar_of_label {s : Str} (h : isDnsLabel s) : ∀ c ∈ s, isNameChar c := by
  intro c hc
  simp only [isDnsLabel, Bool.and_eq_true, all_eq_true] at h
  have := h.2 c hc
  simp only [isNameChar, this, Bool.true_or]

theorem mem_splitOn {c d : Char} {s : Str} (hd : d ∈ s) (hne : d ≠ c) : ∃ w ∈ s.splitOn c, d ∈ w := by
  have hj : [c].intercalate (s.splitOn c) = s := intercalate_splitOn c
  rw [← hj] at hd
  generalize s.splitOn c = ws at hd
  induction ws with
  | nil => simp [List.intercalate] at hd
  | cons w ws ih =>
    cases ws with
    | nil =>
      simp only [List.intercalate, intersperse_singleton, flatten_cons, flatten_nil,
        append_nil] at hd
      exact ⟨w, by simp, hd⟩
    | cons w' ws =>
      simp only [List.intercalate, intersperse_cons_cons, flatten_cons, mem_append,
        mem_singleton] at hd
      rcases hd with hd | hd | hd
      · exact ⟨w, by simp, hd⟩
      · exact absurd hd hne
      · obtain ⟨v, hv, hdv⟩ := ih (by simpa [List.intercalate] using hd)
        exact ⟨v, mem_cons_of_mem _ hv, hdv⟩

theorem isNameChar_of_subdomain {s : Str} (h : isDnsSubdomain s) :
    ∀ c ∈ s, isNameChar c := by
  intro c hc
  by_cases hdot : c = '.'
  · subst hdot; rfl
  · simp only [isDnsSubdomain, Bool.and_eq_true, all_eq_true] at h
    obtain ⟨w, hw, hcw⟩ := mem_splitOn hc hdot
    exact isNameChar_of_label (h.2 w hw) c hcw

theorem ascii_of_isNameChar {c : Char} (h : isNameChar c) : c.toNat < 128 := by
  simp only [isNameChar, Bool.or_eq_true, beq_iff_eq] at h
  rcases h with ((h | h) | rfl) | rfl
  · exact ascii_of_isLower h
  · exact ascii_of_isDigit h
  · decide
  · decide

theorem sanitize_nameChar {c : Char} (h : isNameChar c) :
    (if c.isAlphanum then c.toLower else '_') = if c = '/' ∨ c = '-' ∨ c = '.' then '_' else c := by
  exact forall_ascii (P := fun c => isNameChar c →
    (if c.isAlphanum then c.toLower else '_') = if c = '/' ∨ c = '-' ∨ c = '.' then '_' else c)
    (by decide) c (ascii_of_isNameChar h) h

theorem sanitize_eq_blur {s : Str} (h : ∀ c ∈ s, isNameChar c) : sanitize s = blur s :=
  map_congr_left (fun c hc => sanitize_nameChar (h c hc))

theorem append_sep_inj {c : Char} {a b x y : Str} (hx : c ∉ x) (hy : c ∉ y)
    (h : a ++ c :: x = b ++ c :: y) : a = b ∧ x = y := by
  rcases append_eq_append_iff.mp h with ⟨d, rfl, hd⟩ | ⟨d, rfl, hd⟩
  · cases d with
    | nil => simpa using hd
    | cons e d =>
      simp only [cons_append, List.cons.injEq] at hd
      exact absurd (by rw [hd.2]; simp) hx
  · cases d with
    | nil => simpa using hd.symm
    | cons e d =>
      simp only [cons_append, List.cons.injEq] at hd
      exact absurd (by rw [hd.2]; simp) hy

theorem upName_eq {e : Emitted} (hns : ∀ c ∈ e.ns, isNameChar c)
    (hname : ∀ c ∈ e.name, isNameChar c) :
    e.upName = "up_" ++ blur e.path ++ '_' :: Flow.natText e.idx := by
  have hblur : blur e.path = sanitize e.ns ++ '_' :: sanitize e.name := by
    simp [Emitted.path, blur, sanitize_eq_blur hns, sanitize_eq_blur hname]
  unfold Emitted.upName upstreamName
  rw [hblur]
  simp

theorem upName_eq_iff {e e' : Emitted} (hns : ∀ c ∈ e.ns, isNameChar c)
    (hname : ∀ c ∈ e.name, isNameChar c) (hns' : ∀ c ∈ e'.ns, isNameChar c)
    (hname' : ∀ c ∈ e'.name, isNameChar c) :
    e.upName = e'.upName ↔ e.idx = e'.idx ∧ blur e.path = blur e'.path := by
  rw [upName_eq hns hname, upName_eq hns' hname']
  constructor
  · intro h
    obtain ⟨h1, h2⟩ := append_sep_inj Nat.underscore_not_in_toDigits Nat.underscore_not_in_toDigits h
    exact ⟨Flow.natText_inj h2, append_cancel_left h1⟩
  · rintro ⟨h1, h2⟩
    rw [h1, h2]

end Pulsate.K8s
