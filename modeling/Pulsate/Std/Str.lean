import Mathlib.Algebra.Group.Int.Defs
import Mathlib.Algebra.GroupWithZero.Nat
import Mathlib.Data.Char
import Mathlib.Data.List.Lex
import Mathlib.Data.List.Basic
import Mathlib.Data.List.DropRight

/-!
# Strings

A Rust string is its list of characters; the bytes it is stored as are their UTF-8 encoding. The order
on strings is the lexicographic one on code points, which is also the order on the encoded bytes.
-/

namespace Pulsate

open List

abbrev Str := List Char

instance : Coe String Str := ⟨String.toList⟩

instance instLawfulBEqStr : LawfulBEq Str := inferInstanceAs (LawfulBEq (List Char))

namespace Str

variable {s t : Str} {P : Char → Prop} {c : Char}

/-- The UTF-8 bytes of a string (`as_bytes`). -/
def bytes (s : Str) : List UInt8 := s.flatMap String.utf8EncodeChar

/-- The length in bytes (`str::len`). -/
def len (s : Str) : Nat := (s.map Char.utf8Size).sum

/-- The part of the string from byte `n` on, if a character starts (or the string ends) there. -/
def dropBytes : Str → Nat → Option Str
  | s, 0 => some s
  | [], _ + 1 => none
  | c :: s, n + 1 => if c.utf8Size ≤ n + 1 then dropBytes s (n + 1 - c.utf8Size) else none

/-- The first `n` bytes of the string, if they are whole characters. -/
def takeBytes : Str → Nat → Option Str
  | _, 0 => some []
  | [], _ + 1 => none
  | c :: s, n + 1 =>
    if c.utf8Size ≤ n + 1 then (takeBytes s (n + 1 - c.utf8Size)).map (c :: ·) else none

/-- `&s[a..b]`, or nothing where the indexing panics. -/
def slice (s : Str) (a b : Nat) : Option Str := (s.dropBytes a).bind (·.takeBytes (b - a))

/-- `str::strip_prefix`. -/
def stripPrefix (s pre : Str) : Option Str := pre.isPrefixOf? s

/-- `str::strip_suffix`. -/
def stripSuffix (s suf : Str) : Option Str := suf.isSuffixOf? s

/-- `str::split_once`. -/
def splitOnce (s sep : Str) : Option (Str × Str) :=
  match s with
  | [] => (sep.isPrefixOf? []).map (fun rest => ([], rest))
  | c :: t =>
    match sep.isPrefixOf? (c :: t) with
    | some rest => some ([], rest)
    | none => (splitOnce t sep).map (fun p => (c :: p.1, p.2))

/-- `char::is_whitespace`: the Unicode property `White_Space`. -/
def isWhitespace (c : Char) : Bool :=
  let v := c.toNat
  (9 ≤ v && v ≤ 13) || v == 0x20 || v == 0x85 || v == 0xa0 || v == 0x1680 ||
    (0x2000 ≤ v && v ≤ 0x200a) || v == 0x2028 || v == 0x2029 || v == 0x202f || v == 0x205f ||
    v == 0x3000

/-- `char::is_control`: the Unicode category `Cc`. -/
def isControl (c : Char) : Bool := c.toNat < 0x20 || (0x7f ≤ c.toNat && c.toNat ≤ 0x9f)

/-- `str::trim`. -/
def trim (s : Str) : Str := (s.dropWhile isWhitespace).rdropWhile isWhitespace

/-- `str::trim_end_matches`. -/
def trimEndMatches (s : Str) (c : Char) : Str := s.rdropWhile (· == c)

/-- `str::trim_matches`. -/
def trimMatches (s : Str) (c : Char) : Str := (s.dropWhile (· == c)).rdropWhile (· == c)

/-- `str::to_ascii_lowercase`. -/
def toAsciiLowercase (s : Str) : Str := s.map Char.toLower

/-- `str::to_ascii_uppercase`. -/
def toAsciiUppercase (s : Str) : Str := s.map Char.toUpper

/-- `str::eq_ignore_ascii_case`. -/
def eqIgnoreAsciiCase (s t : Str) : Bool := s.map Char.toLower == t.map Char.toLower

/-- The number a run of decimal digits stands for. -/
def digitsValue (s : Str) : Nat := s.foldl (fun n c => n * 10 + (c.toNat - '0'.toNat)) 0

def isDigits (s : Str) : Bool := !s.isEmpty && s.all Char.isDigit

/-- `str::parse` for an unsigned type of the given width: an optional `+`, then digits. -/
def parseUnsigned (width : Nat) (s : Str) : Option Nat :=
  let digits := (s.stripPrefix "+").getD s
  if isDigits digits ∧ digitsValue digits < 2 ^ width then some (digitsValue digits) else none

/-- `str::parse::<i64>`. -/
def parseI64 (s : Str) : Option Int :=
  match s.stripPrefix "-" with
  | some digits =>
    if isDigits digits ∧ digitsValue digits ≤ 2 ^ 63 then some (-(digitsValue digits : Int)) else none
  | none => (parseUnsigned 63 s).map Int.ofNat

theorem bytes_inj (h : s.bytes = t.bytes) : s = t := by
  have he : s.utf8Encode = t.utf8Encode := congrArg List.toByteArray h
  have hs := utf8Decode?_utf8Encode (l := s)
  have ht := utf8Decode?_utf8Encode (l := t)
  rw [he, ht] at hs
  simpa using hs.symm

theorem forall_ascii (h : ∀ n < 128, P (Char.ofNat n)) (c : Char) (hc : c.toNat < 128) : P c := by
  have := h c.toNat hc
  rwa [Char.ofNat_toNat] at this

theorem toNat_lt_of_val_le {high : UInt32} {n : Nat} (h : c.val ≤ high) (hn : high.toNat < n) :
    c.toNat < n := Nat.lt_of_le_of_lt (UInt32.le_iff_toNat_le.mp h) hn

theorem ascii_of_isUpper (h : c.isUpper) : c.toNat < 128 :=
  toNat_lt_of_val_le (of_decide_eq_true h).2 (by decide)

theorem ascii_of_isLower (h : c.isLower) : c.toNat < 128 :=
  toNat_lt_of_val_le (of_decide_eq_true (Bool.and_eq_true_iff.mp h).2) (by decide)

theorem ascii_of_isDigit (h : c.isDigit) : c.toNat < 128 :=
  toNat_lt_of_val_le (of_decide_eq_true (Bool.and_eq_true_iff.mp h).2) (by decide)

theorem isAlpha_of_isUpper (h : c.isUpper) : c.isAlpha :=
  Bool.or_eq_true_iff.mpr (.inl h)

theorem forall_mem_of_all [DecidablePred P] (h : s.all (fun c => decide (P c))) :
    ∀ c ∈ s, P c := fun c hc => of_decide_eq_true (all_eq_true.mp h c hc)

theorem all_of_forall_mem [DecidablePred P] (h : ∀ c ∈ s, P c) :
    s.all (fun c => decide (P c)) := all_eq_true.mpr (fun c hc => decide_eq_true (h c hc))

/-! ## Cutting strings -/

theorem stripPrefix_cons_ne {d : Char} (h : c ≠ d) (s t : Str) : stripPrefix (c :: s) (d :: t) = none := by
  simp [stripPrefix, List.isPrefixOf?, Ne.symm h]

theorem stripPrefix_append (s t : Str) : stripPrefix (s ++ t) s = some t :=
  isPrefixOf?_eq_some_iff_append_eq.mpr rfl

theorem splitOnce_of_not_mem (h : c ∉ s) : splitOnce s [c] = none := by
  induction s with
  | nil => rfl
  | cons d s ih =>
    have hd : d ≠ c := fun he => h (he ▸ mem_cons_self)
    have hp : List.isPrefixOf? [c] (d :: s) = none := stripPrefix_cons_ne hd s []
    rw [splitOnce, hp, ih (fun hc => h (mem_cons_of_mem _ hc))]
    rfl

theorem splitOnce_append (h : c ∉ s) (rest : Str) : splitOnce (s ++ c :: rest) [c] = some (s, rest) := by
  induction s with
  | nil => simp [splitOnce, List.isPrefixOf?]
  | cons d s ih =>
    have hd : d ≠ c := fun he => h (he ▸ mem_cons_self)
    have hp : List.isPrefixOf? [c] (d :: (s ++ c :: rest)) = none := stripPrefix_cons_ne hd _ []
    rw [cons_append, splitOnce, hp, ih (fun hc => h (mem_cons_of_mem _ hc))]
    rfl

/-! ## Bytes -/

@[simp] theorem bytes_nil : bytes [] = [] := rfl

@[simp] theorem bytes_cons (c : Char) (s : Str) :
    bytes (c :: s) = String.utf8EncodeChar c ++ bytes s := rfl

@[simp] theorem bytes_append (s t : Str) : bytes (s ++ t) = bytes s ++ bytes t :=
  flatMap_append

theorem exists_trimEndMatches (s : Str) (c : Char) :
    ∃ n, s = s.trimEndMatches c ++ List.replicate n c ∧ (s.trimEndMatches c).getLast? ≠ some c := by
  induction s using List.reverseRecOn with
  | nil => exact ⟨0, rfl, by simp [trimEndMatches]⟩
  | append_singleton s d ih =>
    by_cases hd : d = c
    · subst hd
      have htrim : trimEndMatches (s ++ [d]) d = trimEndMatches s d := rdropWhile_concat_pos _ _ _ (by simp)
      obtain ⟨n, hs, hlast⟩ := ih
      refine ⟨n + 1, ?_, htrim ▸ hlast⟩
      rw [htrim, replicate_succ', ← append_assoc, ← hs]
    · have htrim : trimEndMatches (s ++ [d]) c = s ++ [d] := rdropWhile_concat_neg _ _ _ (by simpa using hd)
      exact ⟨0, by simp [htrim], by simpa [htrim] using hd⟩

/-! ## Strings but for the case of their ASCII letters -/

/-- Folding changes letters only, and into small ones. -/
theorem toLower_cases (c : Char) : c.toLower = c ∨ c.toLower.isLower := by
  by_cases hc : c.toNat < 128
  · exact forall_ascii (P := fun c => c.toLower = c ∨ c.toLower.isLower) (by decide) c hc
  · refine .inl ?_
    refine dif_neg ?_
    rintro ⟨-, h⟩
    have := UInt32.le_iff_toNat_le.mp h
    exact hc (Nat.lt_of_le_of_lt this (by decide))

theorem eq_of_toLower {d : Char} (hd : d.isLower = false) (h : c.toLower = d) : c = d := by
  rcases toLower_cases c with hc | hc
  · exact hc.symm.trans h
  · rw [h, hd] at hc
    cases hc

theorem eqIgnoreAsciiCase_iff : s.eqIgnoreAsciiCase t ↔ s.map Char.toLower = t.map Char.toLower := beq_iff_eq

theorem length_eq_of_eqIgnoreAsciiCase (h : s.eqIgnoreAsciiCase t) : s.length = t.length := by
  have := congrArg List.length (eqIgnoreAsciiCase_iff.mp h)
  rwa [length_map, length_map] at this

theorem toLower_toUpper (c : Char) : c.toUpper.toLower = c.toLower := by
  by_cases hc : c.toNat < 128
  · exact forall_ascii (P := fun c => c.toUpper.toLower = c.toLower) (by decide) c hc
  · have hup : c.toUpper = c := by
      refine dif_neg ?_
      rintro ⟨-, h⟩
      have := UInt32.le_iff_toNat_le.mp h
      exact hc (Nat.lt_of_le_of_lt this (by decide))
    rw [hup]

theorem eqIgnoreAsciiCase_toAsciiUppercase (s t : Str) :
    s.toAsciiUppercase.eqIgnoreAsciiCase t = s.eqIgnoreAsciiCase t := by
  have h : s.toAsciiUppercase.map Char.toLower = s.map Char.toLower := by
    rw [Str.toAsciiUppercase, map_map]
    exact map_congr_left (fun c _ => toLower_toUpper c)
  rw [Str.eqIgnoreAsciiCase, h]
  rfl

end Str

end Pulsate
