import Pulsate.Flow.Tree
import Pulsate.Flow.Value

/-!
# What atoms are typed as
-/

namespace Pulsate.Flow

open List Str

/-! ## Numbers -/

/-- The characters a number can start with. -/
def startsNumber (c : Char) : Bool := c.isDigit || c == '+' || c == '-' || c == '.'

theorem parseUnsigned_cons {c : Char} (h : startsNumber c = false) (width : Nat) (s : Str) :
    Str.parseUnsigned width (c :: s) = none := by
  simp only [startsNumber, Bool.or_eq_false_iff, beq_eq_false_iff_ne] at h
  obtain ⟨⟨⟨hd, hp⟩, -⟩, -⟩ := h
  have hs : Str.stripPrefix (c :: s) "+" = none := stripPrefix_cons_ne hp s []
  rw [Str.parseUnsigned, hs]
  simp [Str.isDigits, hd]

theorem splitOnce_cons {s sep u v : Str} {c : Char} (h : Str.splitOnce (c :: s) sep = some (u, v)) :
    u = [] ∨ ∃ w, u = c :: w := by
  rw [Str.splitOnce] at h
  split at h
  · cases h; exact .inl rfl
  · obtain ⟨p, -, hp⟩ := Option.map_eq_some_iff.mp h
    cases hp
    exact .inr ⟨_, rfl⟩

theorem tryRate_cons {c : Char} (h : startsNumber c = false) (s : Str) : tryRate (c :: s) = none := by
  rw [tryRate]
  cases hs : Str.splitOnce (c :: s) "/" with
  | none => rfl
  | some p =>
    obtain ⟨u, v⟩ := p
    have hu : Str.parseUnsigned 64 u = none := by
      rcases splitOnce_cons hs with rfl | ⟨w, rfl⟩
      · rfl
      · exact parseUnsigned_cons h 64 w
    simp [hu]

theorem tryFloat_cons {c : Char} (h : startsNumber c = false) (s : Str) : tryFloat (c :: s) = none := by
  simp only [startsNumber, Bool.or_eq_false_iff] at h
  have hall : (c :: s).all (fun c => c.isDigit || c == '.') = false := by
    rw [all_cons, h.1.1.1, h.2]
    rfl
  rw [tryFloat, hall]
  simp

/-! ## Strings -/

theorem typeAtom_str {c : Char} (h : startsNumber c = false) (hc : c ∉ "@stof".toList) (s : Str) :
    typeAtom (c :: s) = .str (c :: s) := by
  have hne : ∀ {d : Char}, d ∈ "@stof".toList → c ≠ d := by
    rintro d hd rfl
    exact hc hd
  have hword : ∀ {d : Char} {t : Str}, d ∈ "@stof".toList → c :: s ≠ d :: t :=
    fun hd heq => hne hd (List.cons.inj heq).1
  have htrue : c :: s ≠ "true".toList := hword (by decide)
  have hon : c :: s ≠ "on".toList := hword (by decide)
  have hfalse : c :: s ≠ "false".toList := hword (by decide)
  have hoff : c :: s ≠ "off".toList := hword (by decide)
  have h1 : Str.stripPrefix (c :: s) "@".toList = none := stripPrefix_cons_ne (hne (by decide)) s []
  have h2 : Str.stripPrefix (c :: s) "secret://".toList = none :=
    stripPrefix_cons_ne (hne (by decide)) s "ecret://".toList
  have h3 : Str.parseI64 (c :: s) = none := by
    have hm : Str.stripPrefix (c :: s) "-".toList = none := by
      refine stripPrefix_cons_ne ?_ s []
      rintro rfl
      cases h
    rw [Str.parseI64, hm, parseUnsigned_cons h]
    rfl
  have h4 : hasNumericPrefix (c :: s) = false := by
    simp only [startsNumber, Bool.or_eq_false_iff] at h
    simp [hasNumericPrefix, h.1.1.1]
  rw [typeAtom, h1]
  simp only [h2, htrue, hon, hfalse, hoff, or_self, if_false, tryRate_cons h, h3, tryFloat_cons h, h4, Bool.false_eq_true]

theorem typeAtom_ref (s : Str) : typeAtom ("@" ++ s) = .ref s := by
  rw [typeAtom, stripPrefix_append]

/-- A value other than a string and an array. -/
def Value.isLiteral : Value → Bool
  | .str _ | .array _ => false
  | _ => true

theorem tryRate_isLiteral {a : Str} {v : Value} (h : tryRate a = some v) : v.isLiteral := by
  unfold tryRate at h
  simp only [Option.bind_eq_bind, Option.bind_eq_some_iff] at h
  obtain ⟨_, _, _, _, h⟩ := h
  split at h
  · cases h; rfl
  · split at h
    · cases h; rfl
    · split at h
      · cases h; rfl
      · cases h

theorem typeAtom_cases (raw : Str) : typeAtom raw = .str raw ∨ (typeAtom raw).isLiteral := by
  rw [typeAtom]
  split
  · exact .inr rfl
  split
  · exact .inr rfl
  split
  · exact .inr rfl
  split
  · exact .inr rfl
  split
  · exact .inr (tryRate_isLiteral (by assumption))
  split
  · exact .inr rfl
  split
  · exact .inr rfl
  split
  · split
    · exact .inr rfl
    · split
      · exact .inr rfl
      · exact .inl rfl
  · exact .inl rfl

theorem eq_of_typeAtom {raw s : Str} (h : typeAtom raw = .str s) : s = raw := by
  rcases typeAtom_cases raw with hr | hr
  · rw [h] at hr
    cases hr
    rfl
  · rw [h] at hr
    cases hr

theorem typeAtom_erase (a : Str) : (typeAtom a).erase = typeAtom a := by
  rcases typeAtom_cases a with h | h
  · rw [h]
    rfl
  · cases hv : typeAtom a <;> first | rfl | (rw [hv] at h; cases h)

theorem typeAtom_ne_array (a : Str) (items : List (Spanned Value)) : typeAtom a ≠ .array items := by
  intro h
  rcases typeAtom_cases a with hc | hc
  · rw [hc] at h; cases h
  · rw [h] at hc; cases hc

/-! ## Arguments up to positions -/

theorem Value.eq_of_erase {w v : Value} (h : w.erase = v) (hv : ∀ items, v ≠ .array items) : w = v := by
  cases w with
  | array items => exact absurd h.symm (hv _)
  | _ => exact h

theorem Arg.eq_of_erase_positional {a : Arg} {v : Value} (h : a.erase = .positional ⟨v, Span.zero⟩)
    (hv : ∀ items, v ≠ .array items) : ∃ span, a = .positional ⟨v, span⟩ := by
  cases a with
  | named name w => cases h
  | positional w =>
    obtain ⟨node, span⟩ := w
    injection h with h
    injection h with h
    have hnode : node = v := Value.eq_of_erase h hv
    exact ⟨span, by rw [hnode]⟩

/-! ## Numerals -/

theorem digitsValue_natText (n : Nat) : Str.digitsValue (natText n) = n := by
  have h : ∀ s : Str, Str.digitsValue s = Nat.ofDigitChars 10 s 0 := by
    intro s
    rw [Str.digitsValue, Nat.ofDigitChars]
    congr
    funext a c
    rw [Nat.mul_comm]
  rw [h, natText, Nat.ofDigitChars_ten_toDigits]

theorem natText_inj {m n : Nat} (h : natText m = natText n) : m = n := by
  rw [← digitsValue_natText m, h, digitsValue_natText]

theorem natText_isDigit {n : Nat} : ∀ c ∈ natText n, c.isDigit :=
  fun _ hc => Nat.isDigit_of_mem_toDigits (by decide) (by decide) hc

theorem natText_ne_nil (n : Nat) : natText n ≠ [] := Nat.toDigits_ne_nil

theorem natText_append_inj {m n : Nat} {sep x y : Str} (hsep : sep.head?.any (fun c => !c.isDigit))
    (h : natText m ++ (sep ++ x) = natText n ++ (sep ++ y)) : m = n ∧ x = y := by
  have htake : ∀ (k : Nat) (z : Str), (natText k ++ (sep ++ z)).takeWhile Char.isDigit = natText k := by
    intro k z
    rw [takeWhile_append_of_pos natText_isDigit]
    cases sep with
    | nil => cases hsep
    | cons c sep => rw [cons_append, takeWhile_cons_of_neg (by simpa using hsep), append_nil]
  have hmn : m = n := natText_inj (by rw [← htake m x, h, htake])
  rw [hmn] at h
  exact ⟨hmn, append_cancel_left (append_cancel_left h)⟩

theorem stripPrefix_digits {s : Str} (hs : ∀ c ∈ s, c.isDigit) {d : Char} (hd : d.isDigit = false)
    (t : Str) : Str.stripPrefix s (d :: t) = none := by
  cases s with
  | nil => rfl
  | cons c s =>
    refine stripPrefix_cons_ne ?_ s t
    rintro rfl
    rw [hs c mem_cons_self] at hd
    cases hd

theorem ne_of_digits {s : Str} (hs : ∀ c ∈ s, c.isDigit) {d : Char} (hd : d.isDigit = false) (t : Str) :
    s ≠ d :: t := by
  rintro rfl
  rw [hs d mem_cons_self] at hd
  cases hd

theorem typeAtom_natText {n : Nat} (h : n < 2 ^ 63) : typeAtom (natText n) = .int n := by
  have hs := natText_isDigit (n := n)
  have hdig : Str.isDigits (natText n) := by
    rw [Str.isDigits, Bool.and_eq_true, all_eq_true]
    exact ⟨by simp [natText_ne_nil], hs⟩
  have hplus : Str.stripPrefix (natText n) "+" = none := stripPrefix_digits hs rfl []
  have hminus : Str.stripPrefix (natText n) "-" = none := stripPrefix_digits hs rfl []
  have href : Str.stripPrefix (natText n) "@" = none := stripPrefix_digits hs rfl []
  have hsecret : Str.stripPrefix (natText n) "secret://" = none := stripPrefix_digits hs rfl _
  have hslash : Str.splitOnce (natText n) "/" = none :=
    splitOnce_of_not_mem (fun hc => by cases hs '/' hc)
  have hrate : tryRate (natText n) = none := by
    rw [tryRate, hslash]
    rfl
  have hval : Str.parseUnsigned 63 (natText n) = some n := by
    rw [Str.parseUnsigned, hplus]
    simp only [Option.getD_none, hdig, digitsValue_natText, h, and_self, if_true]
  have hint : Str.parseI64 (natText n) = some (n : Int) := by
    rw [Str.parseI64, hminus, hval]
    rfl
  have h1 : natText n ≠ "true" := ne_of_digits hs rfl _
  have h2 : natText n ≠ "on" := ne_of_digits hs rfl _
  have h3 : natText n ≠ "false" := ne_of_digits hs rfl _
  have h4 : natText n ≠ "off" := ne_of_digits hs rfl _
  rw [typeAtom, href, hsecret]
  simp only [h1, h2, h3, h4, or_self, if_false, hrate, hint]

end Pulsate.Flow
