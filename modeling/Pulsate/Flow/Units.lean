import Pulsate.Flow.Lemmas.Value

/-!
# Numbers with units

What a number with a unit stands for, and what the parsers of `pulsate-util` make of it.
-/

namespace Pulsate.Flow

open List Str

/-- A number as it is written. -/
structure Numeral where
  text : Str
  isDigits : text.isDigits
  deriving DecidableEq, Repr

def Numeral.value (n : Numeral) : Nat := n.text.digitsValue

inductive TimeUnit
  | ms
  | s
  | m
  | h
  | d
  deriving DecidableEq, Repr

namespace TimeUnit

def text : TimeUnit → Str
  | ms => "ms"
  | s => "s"
  | m => "m"
  | h => "h"
  | d => "d"

/-- How many milliseconds or seconds, whichever the unit is counted in. -/
def factor : TimeUnit → Nat
  | ms => 1
  | s => 1
  | m => 60
  | h => 3600
  | d => 86400

def nanos : TimeUnit → Nat
  | ms => 1000000
  | u => u.factor * 1000000000

end TimeUnit

inductive SizeUnit
  | B
  | KB
  | MB
  | GB
  | TB
  deriving DecidableEq, Repr

namespace SizeUnit

def text : SizeUnit → Str
  | B => "B"
  | KB => "KB"
  | MB => "MB"
  | GB => "GB"
  | TB => "TB"

def factor : SizeUnit → Nat
  | B => 1
  | KB => 1000
  | MB => 1000000
  | GB => 1000000000
  | TB => 1000000000000

end SizeUnit

/-- The number and its product with a factor both fit into 64 bits. -/
def Numeral.Fits (n : Numeral) (factor : Nat) : Prop := n.value < 2 ^ 64 ∧ n.value * factor < 2 ^ 64

/-- A duration is what is written, or an error where that does not fit. -/
def DurationExact (n : Numeral) (u : TimeUnit) : Prop :=
  (n.Fits u.factor → ∃ d, parseDuration (n.text ++ u.text) = .ok d ∧ d.nanos < 1000000000 ∧
    d.secs * 1000000000 + d.nanos = n.value * u.nanos) ∧
  (¬ n.Fits u.factor → ∃ e, parseDuration (n.text ++ u.text) = .error e)

/-- A size is what is written, whatever the case of its unit, or an error where that does not fit. -/
def SizeExact (n : Numeral) (u : SizeUnit) : Prop :=
  ∀ w : Str, w.toAsciiUppercase = u.text →
    (n.Fits u.factor → parseSize (n.text ++ w) = .ok (n.value * u.factor)) ∧
    (¬ n.Fits u.factor → ∃ e, parseSize (n.text ++ w) = .error e)

/-- The text is a number before a unit, with blanks around them. -/
def IsQuantity (text : Str) (n : Numeral) (unit : Str) : Prop :=
  ∃ gap : Str, text.trim = n.text ++ (gap ++ unit) ∧ ∀ c ∈ gap, Str.isWhitespace c

/-! ## Trimming -/

theorem trim_of_ends {s : Str} (h1 : ∀ c ∈ s.head?, Str.isWhitespace c = false)
    (h2 : ∀ c ∈ s.getLast?, Str.isWhitespace c = false) : s.trim = s := by
  have hdrop : s.dropWhile Str.isWhitespace = s := by
    cases s with
    | nil => rfl
    | cons c s => rw [dropWhile_cons_of_neg (by simpa using h1)]
  rw [Str.trim, hdrop, rdropWhile_eq_self_iff]
  intro hne hw
  rw [h2 _ (getLast?_eq_getLast_of_ne_nil hne)] at hw
  cases hw

theorem getLast?_trim (s : Str) : ∀ c ∈ s.trim.getLast?, Str.isWhitespace c = false := by
  intro c hc
  obtain ⟨hne, rfl⟩ := mem_getLast?_eq_getLast hc
  exact Bool.not_eq_true _ ▸ rdropWhile_last_not Str.isWhitespace (s.dropWhile Str.isWhitespace) hne

theorem head?_trim (s : Str) : ∀ c ∈ s.trim.head?, Str.isWhitespace c = false := by
  intro c hc
  have hprefix : s.trim <+: s.dropWhile Str.isWhitespace := rdropWhile_prefix _ _
  have hhead : c ∈ (s.dropWhile Str.isWhitespace).head? := by
    obtain ⟨t, ht⟩ := hprefix
    rw [← ht, head?_append, Option.mem_def.mp hc]
    rfl
  have := head?_dropWhile_not Str.isWhitespace s
  rw [Option.mem_def.mp hhead] at this
  simpa using this

@[simp] theorem trim_trim (s : Str) : s.trim.trim = s.trim := trim_of_ends (head?_trim s) (getLast?_trim s)

/-! ## Splitting -/

theorem Numeral.all_digits (n : Numeral) : ∀ c ∈ n.text, c.isDigit := by
  have h := n.isDigits
  rw [Str.isDigits, Bool.and_eq_true, all_eq_true] at h
  exact h.2

theorem Numeral.ne_nil (n : Numeral) : n.text ≠ [] := by
  have h := n.isDigits
  rw [Str.isDigits, Bool.and_eq_true] at h
  simpa using h.1

theorem Numeral.parseUnsigned (n : Numeral) :
    Str.parseUnsigned 64 n.text = if n.value < 2 ^ 64 then some n.value else none := by
  have hplus : Str.stripPrefix n.text "+" = none := stripPrefix_digits n.all_digits rfl []
  rw [Str.parseUnsigned, hplus, Option.getD_none]
  by_cases h : n.value < 2 ^ 64
  · rw [if_pos ⟨n.isDigits, h⟩, if_pos h]
    rfl
  · rw [if_neg (fun hn => h hn.2), if_neg h]

theorem splitNumberUnit_eq {s rest : Str} {n : Numeral} (hs : s.trim = n.text ++ rest) (hne : rest ≠ [])
    (hrest : ∀ c ∈ rest.head?, c.isDigit = false) :
    splitNumberUnit s = if n.value < 2 ^ 64 then some (n.value, rest.trim) else none := by
  have hstop : rest.takeWhile Char.isDigit = [] ∧ rest.dropWhile Char.isDigit = rest := by
    cases rest with
    | nil => exact absurd rfl hne
    | cons c rest =>
      have hc : ¬ c.isDigit := by simpa using hrest
      exact ⟨takeWhile_cons_of_neg hc, dropWhile_cons_of_neg hc⟩
  rw [splitNumberUnit, hs, takeWhile_append_of_pos n.all_digits, dropWhile_append_of_pos n.all_digits, hstop.1,
    hstop.2, append_nil, n.parseUnsigned]
  simp only [isEmpty_eq_false_iff.mpr hne, isEmpty_eq_false_iff.mpr n.ne_nil, Bool.or_self, Bool.false_eq_true,
    if_false]
  split <;> rfl

theorem splitNumberUnit_eq_some {s w : Str} {v : Nat} (h : splitNumberUnit s = some (v, w)) :
    ∃ (n : Numeral) (rest : Str), s.trim = n.text ++ rest ∧ rest ≠ [] ∧ (∀ c ∈ rest.head?, c.isDigit = false) ∧
      n.value < 2 ^ 64 ∧ v = n.value ∧ w = rest.trim := by
  rw [splitNumberUnit] at h
  split at h
  · cases h
  · rename_i hempty
    rw [Bool.or_eq_true, not_or, Bool.not_eq_true, Bool.not_eq_true, isEmpty_eq_false_iff,
      isEmpty_eq_false_iff] at hempty
    have hdigits : Str.isDigits (s.trim.takeWhile Char.isDigit) := by
      rw [Str.isDigits, Bool.and_eq_true, all_eq_true]
      exact ⟨by simpa using hempty.2, fun c hc => mem_takeWhile_imp hc⟩
    have hparse := Numeral.parseUnsigned ⟨_, hdigits⟩
    obtain ⟨v', hv, he⟩ := Option.map_eq_some_iff.mp h
    cases he
    rw [hv] at hparse
    split at hparse
    · rename_i hlt
      refine ⟨⟨_, hdigits⟩, s.trim.dropWhile Char.isDigit, ?_, hempty.1, ?_, hlt, Option.some_inj.mp hparse, rfl⟩
      · exact takeWhile_append_dropWhile.symm
      · intro c hc
        have := head?_dropWhile_not Char.isDigit s.trim
        rw [Option.mem_def.mp hc] at this
        simpa using this
    · cases hparse

/-- What comes behind the digits of a trimmed text has blanks before it only. -/
theorem trim_behind {s rest : Str} {n : Numeral} (hs : s.trim = n.text ++ rest) :
    ∃ gap : Str, rest = gap ++ rest.trim ∧ ∀ c ∈ gap, Str.isWhitespace c := by
  refine ⟨rest.takeWhile Str.isWhitespace, ?_, fun c hc => mem_takeWhile_imp hc⟩
  have hlast : (rest.dropWhile Str.isWhitespace).rdropWhile Str.isWhitespace = rest.dropWhile Str.isWhitespace := by
    rw [rdropWhile_eq_self_iff]
    intro hne hw
    have hsuffix : rest.dropWhile Str.isWhitespace <:+ s.trim :=
      (dropWhile_suffix _).trans (hs ▸ suffix_append n.text rest)
    have hlast := hsuffix.getLast hne
    have := getLast?_trim s _ (getLast?_eq_getLast_of_ne_nil (hsuffix.ne_nil hne))
    rw [hlast] at hw
    rw [hw] at this
    cases this
  rw [Str.trim, hlast, takeWhile_append_dropWhile]

/-! ## Durations -/

/-- The duration that `parse_duration` gives to a number of units. -/
def TimeUnit.duration (v : Nat) : TimeUnit → Duration
  | ms => ⟨v / 1000, v % 1000 * 1000000⟩
  | s => ⟨v, 0⟩
  | u => ⟨saturatingMul v u.factor, 0⟩

theorem parseDuration_unit {text : Str} {v : Nat} {u : TimeUnit} (hne : text.trim ≠ [])
    (h : splitNumberUnit text.trim = some (v, u.text)) : parseDuration text = .ok (u.duration v) := by
  unfold parseDuration
  simp only [isEmpty_eq_false_iff.mpr hne, Bool.false_eq_true, if_false, h]
  cases u <;> rfl

theorem parseDuration_eq_ok {text : Str} {d : Duration} (h : parseDuration text = .ok d) :
    ∃ v u, splitNumberUnit text.trim = some (v, TimeUnit.text u) ∧ d = u.duration v := by
  unfold parseDuration at h
  simp only at h
  split at h
  · cases h
  cases hsplit : splitNumberUnit text.trim with
  | none =>
    rw [hsplit] at h
    cases h
  | some vu =>
    obtain ⟨v, unit⟩ := vu
    rw [hsplit] at h
    simp only at h
    split at h
    · rename_i hu
      cases h
      exact ⟨v, .ms, by rw [hu]; rfl, rfl⟩
    split at h
    · rename_i hu
      cases h
      exact ⟨v, .s, by rw [hu]; rfl, rfl⟩
    split at h
    · rename_i hu
      cases h
      exact ⟨v, .m, by rw [hu]; rfl, rfl⟩
    split at h
    · rename_i hu
      cases h
      exact ⟨v, .h, by rw [hu]; rfl, rfl⟩
    split at h
    · rename_i hu
      cases h
      exact ⟨v, .d, by rw [hu]; rfl, rfl⟩
    · cases h

theorem TimeUnit.text_chars (u : TimeUnit) : ∀ c ∈ u.text, c.isDigit = false ∧ Str.isWhitespace c = false := by
  have hall : u.text.all (fun c => !c.isDigit && !Str.isWhitespace c) := by cases u <;> decide
  simpa using hall

theorem TimeUnit.text_ne_nil (u : TimeUnit) : u.text ≠ [] := by
  cases u <;> decide

theorem trim_numeral {n : Numeral} {w : Str} (hne : w ≠ []) (hw : ∀ c ∈ w, Str.isWhitespace c = false) :
    Str.trim (n.text ++ w) = n.text ++ w := by
  apply trim_of_ends
  · intro c hc
    have hmem : c ∈ n.text := by
      rw [head?_append_of_ne_nil _ n.ne_nil] at hc
      exact mem_of_mem_head? hc
    have hdigit := n.all_digits c hmem
    exact forall_ascii (P := fun c => c.isDigit → Str.isWhitespace c = false) (by decide) c
      (ascii_of_isDigit hdigit) hdigit
  · intro c hc
    rw [getLast?_append_of_ne_nil _ hne] at hc
    exact hw c (mem_of_mem_getLast? hc)

theorem splitNumberUnit_numeral {n : Numeral} {w : Str} (hne : w ≠ [])
    (hw : ∀ c ∈ w, c.isDigit = false ∧ Str.isWhitespace c = false) :
    splitNumberUnit (Str.trim (n.text ++ w)) = if n.value < 2 ^ 64 then some (n.value, w) else none := by
  have htrim := trim_numeral (n := n) hne (fun c hc => (hw c hc).2)
  have hself : Str.trim w = w :=
    trim_of_ends (fun c hc => (hw c (mem_of_mem_head? hc)).2) (fun c hc => (hw c (mem_of_mem_getLast? hc)).2)
  rw [htrim, splitNumberUnit_eq htrim hne (fun c hc => (hw c (mem_of_mem_head? hc)).1), hself]

theorem parseDuration_numeral (n : Numeral) (u : TimeUnit) :
    (n.value < 2 ^ 64 → parseDuration (n.text ++ u.text) = .ok (u.duration n.value)) ∧
      (¬ n.value < 2 ^ 64 → ∃ e, parseDuration (n.text ++ u.text) = .error e) := by
  have hsplit := splitNumberUnit_numeral (n := n) u.text_ne_nil u.text_chars
  constructor
  · intro hlt
    rw [if_pos hlt] at hsplit
    refine parseDuration_unit ?_ hsplit
    rw [trim_numeral u.text_ne_nil (fun c hc => (u.text_chars c hc).2)]
    simp [n.ne_nil]
  · intro hlt
    rw [if_neg hlt] at hsplit
    cases h : parseDuration (n.text ++ u.text) with
    | error e => exact ⟨e, rfl⟩
    | ok d =>
      obtain ⟨v, u', hsome, -⟩ := parseDuration_eq_ok h
      rw [hsplit] at hsome
      cases hsome

theorem durationExact_iff (n : Numeral) (u : TimeUnit) :
    DurationExact n u ↔ (n.value < 2 ^ 64 → n.value * u.factor < 2 ^ 64) := by
  obtain ⟨hok, herr⟩ := parseDuration_numeral n u
  constructor
  · intro hexact hlt
    by_contra hbig
    obtain ⟨e, he⟩ := hexact.2 (fun hfits => hbig hfits.2)
    rw [hok hlt] at he
    cases he
  · intro h
    refine ⟨?_, ?_⟩
    · rintro ⟨hlt, hfits⟩
      refine ⟨_, hok hlt, ?_⟩
      cases u <;> simp only [TimeUnit.duration, TimeUnit.nanos, TimeUnit.factor, saturatingMul] at hfits ⊢ <;> omega
    · intro hfits
      exact herr (fun hlt => hfits ⟨hlt, h hlt⟩)

theorem parseDuration_isQuantity {text : Str} {d : Duration} (h : parseDuration text = .ok d) :
    ∃ n u, IsQuantity text n (TimeUnit.text u) ∧ parseDuration (n.text ++ u.text) = .ok d := by
  obtain ⟨v, u, hsplit, rfl⟩ := parseDuration_eq_ok h
  obtain ⟨n, rest, htrim, -, -, hlt, rfl, hu⟩ := splitNumberUnit_eq_some hsplit
  obtain ⟨gap, hgap, hblank⟩ := trim_behind htrim
  rw [trim_trim] at htrim
  rw [← hu] at hgap
  exact ⟨n, u, ⟨gap, by rw [htrim, ← hgap], hblank⟩, (parseDuration_numeral n u).1 hlt⟩

/-! ## Sizes -/

theorem toUpper_of_isDigit {c : Char} (h : c.isDigit) : c.toUpper = c :=
  forall_ascii (P := fun c => c.isDigit → c.toUpper = c) (by decide) c (ascii_of_isDigit h) h

theorem toUpper_of_isWhitespace {c : Char} (h : Str.isWhitespace c) : c.toUpper = c := by
  by_cases hc : c.toNat < 128
  · exact forall_ascii (P := fun c => Str.isWhitespace c → c.toUpper = c) (by decide) c hc h
  · refine dif_neg ?_
    rintro ⟨-, hle⟩
    exact hc (toNat_lt_of_val_le hle (by decide))

theorem SizeUnit.text_chars (u : SizeUnit) : ∀ c ∈ u.text, c.isDigit = false ∧ Str.isWhitespace c = false := by
  have hall : u.text.all (fun c => !c.isDigit && !Str.isWhitespace c) := by cases u <;> decide
  simpa using hall

theorem spelling_chars {w : Str} {u : SizeUnit} (h : w.toAsciiUppercase = u.text) :
    w ≠ [] ∧ ∀ c ∈ w, c.isDigit = false ∧ Str.isWhitespace c = false := by
  constructor
  · rintro rfl
    cases u <;> cases h
  · intro c hc
    have hmem : c.toUpper ∈ u.text := h ▸ mem_map_of_mem hc
    have hupper := u.text_chars _ hmem
    constructor
    · by_contra hdigit
      rw [Bool.not_eq_false] at hdigit
      rw [toUpper_of_isDigit hdigit, hdigit] at hupper
      cases hupper.1
    · by_contra hblank
      rw [Bool.not_eq_false] at hblank
      rw [toUpper_of_isWhitespace hblank, hblank] at hupper
      cases hupper.2

theorem sizeUnit_text (u : SizeUnit) : sizeUnit u.text = some u.factor := by
  cases u <;> rfl

theorem sizeUnit_eq_some {w : Str} {k : Nat} (h : sizeUnit w = some k) : ∃ u, w = SizeUnit.text u ∧ k = u.factor := by
  unfold sizeUnit at h
  split at h
  · cases h
    exact ⟨.B, ‹_›, rfl⟩
  split at h
  · cases h
    exact ⟨.KB, ‹_›, rfl⟩
  split at h
  · cases h
    exact ⟨.MB, ‹_›, rfl⟩
  split at h
  · cases h
    exact ⟨.GB, ‹_›, rfl⟩
  split at h
  · cases h
    exact ⟨.TB, ‹_›, rfl⟩
  · cases h

theorem parseUnsigned_spelled {n : Numeral} {w : Str} (hne : w ≠ []) (hw : ∀ c ∈ w, c.isDigit = false) :
    Str.parseUnsigned 64 (n.text ++ w) = none := by
  obtain ⟨c, t, ht⟩ := exists_cons_of_ne_nil n.ne_nil
  have hc : c.isDigit := n.all_digits c (by simp [ht])
  have hplus : Str.stripPrefix (n.text ++ w) "+" = none := by
    rw [ht, cons_append]
    refine stripPrefix_cons_ne ?_ _ _
    rintro rfl
    cases hc
  obtain ⟨b, v, rfl⟩ := exists_cons_of_ne_nil hne
  rw [Str.parseUnsigned, hplus, Option.getD_none, if_neg]
  rintro ⟨hdigits, -⟩
  rw [Str.isDigits, Bool.and_eq_true, all_eq_true] at hdigits
  have := hdigits.2 b (by simp)
  rw [hw b mem_cons_self] at this
  cases this

theorem sizeExact (n : Numeral) (u : SizeUnit) : SizeExact n u := by
  intro w hw
  obtain ⟨hne, hchars⟩ := spelling_chars hw
  have htrim := trim_numeral (n := n) hne (fun c hc => (hchars c hc).2)
  have hsplit := splitNumberUnit_numeral (n := n) hne hchars
  have hbare := parseUnsigned_spelled (n := n) hne (fun c hc => (hchars c hc).1)
  have hempty : (n.text ++ w).isEmpty = false := by simp [n.ne_nil]
  rw [htrim] at hsplit
  constructor
  · rintro ⟨hlt, hfits⟩
    unfold parseSize
    simp only [htrim, hempty, Bool.false_eq_true, if_false, hbare, hsplit, if_pos hlt, hw, sizeUnit_text, if_pos hfits]
  · intro hfits
    by_cases hlt : n.value < 2 ^ 64
    · have hbig : ¬ n.value * u.factor < 2 ^ 64 := fun h => hfits ⟨hlt, h⟩
      unfold parseSize
      simp only [htrim, hempty, Bool.false_eq_true, if_false, hbare, hsplit, if_pos hlt, hw, sizeUnit_text, if_neg hbig]
      exact ⟨_, rfl⟩
    · unfold parseSize
      simp only [htrim, hempty, Bool.false_eq_true, if_false, hbare, hsplit, if_neg hlt]
      exact ⟨_, rfl⟩

theorem parseSize_isQuantity {text : Str} {k : Nat} (h : parseSize text = .ok k) :
    Str.parseUnsigned 64 text.trim = some k ∨
      ∃ n u w, IsQuantity text n w ∧ w.toAsciiUppercase = SizeUnit.text u ∧ k = n.value * u.factor := by
  unfold parseSize at h
  simp only at h
  split at h
  · cases h
  cases hbare : Str.parseUnsigned 64 text.trim with
  | some bytes =>
    rw [hbare] at h
    cases h
    exact .inl rfl
  | none =>
    rw [hbare] at h
    simp only at h
    cases hsplit : splitNumberUnit text.trim with
    | none =>
      rw [hsplit] at h
      cases h
    | some vu =>
      obtain ⟨v, unit⟩ := vu
      rw [hsplit] at h
      simp only at h
      cases hunit : sizeUnit unit.toAsciiUppercase with
      | none =>
        rw [hunit] at h
        cases h
      | some mult =>
        rw [hunit] at h
        simp only at h
        split at h
        · cases h
          obtain ⟨u, hu, rfl⟩ := sizeUnit_eq_some hunit
          obtain ⟨n, rest, htrim, -, -, -, rfl, hrest⟩ := splitNumberUnit_eq_some hsplit
          obtain ⟨gap, hgap, hblank⟩ := trim_behind htrim
          rw [trim_trim] at htrim
          rw [← hrest] at hgap
          exact .inr ⟨n, u, unit, ⟨gap, by rw [htrim, ← hgap], hblank⟩, hu, rfl⟩
        · cases h

end Pulsate.Flow
