import Pulsate.Control.Json
import Pulsate.Flow.Lemmas.Value
import Pulsate.Lib.Lists

/-!
# What JSON text says

Every field that the writers write can be told from what follows it. So two lists of fields with the same text are the same.
-/

namespace Pulsate.Control

open List Lib
open Pulsate.Flow (natText natText_isDigit natText_inj natText_ne_nil)

variable {r s : Str}

/-! ## Characters -/

def hexValue (c : Char) : Nat := "0123456789abcdef".toList.idxOf c

/-- A character of a quoted string, and what follows it. -/
def readChar : Str → Option (Char × Str)
  | '\\' :: 'u' :: a :: b :: c :: d :: s =>
    some (.ofNat (((hexValue a * 16 + hexValue b) * 16 + hexValue c) * 16 + hexValue d), s)
  | '\\' :: 'n' :: s => some ('\n', s)
  | '\\' :: 'r' :: s => some ('\r', s)
  | '\\' :: 't' :: s => some ('\t', s)
  | '\\' :: c :: s => some (c, s)
  | '"' :: _ => none
  | c :: s => some (c, s)
  | [] => none

theorem readChar_escChar (c : Char) (s : Str) : readChar (escChar c ++ s) = some (c, s) := by
  have hhex : ∀ k < 16, hexValue (Waf.hexDigit k) = k := by decide
  unfold escChar
  split
  next h => rw [h]; rfl
  split
  next h => rw [h]; rfl
  split
  next h => rw [h]; rfl
  split
  next h => rw [h]; rfl
  split
  next h => rw [h]; rfl
  split
  next h =>
    have hzero : hexValue '0' = 0 := by decide
    have hc : c.toNat / 16 * 16 + c.toNat % 16 = c.toNat := by omega
    simp only [cons_append, nil_append, readChar, hhex (c.toNat / 16) (by omega), hhex (c.toNat % 16) (by omega), hzero,
      Nat.zero_mul, Nat.zero_add, hc, Char.ofNat_toNat]
  next hslash _ _ _ _ => simp [readChar, hslash]

/-! ## Strings and numbers -/

theorem quoted_inj {code : Char → Str} (hread : ∀ c s, readChar (code c ++ s) = some (c, s)) {v w : Str}
    (h : v.flatMap code ++ '"' :: r = w.flatMap code ++ '"' :: s) : v = w ∧ r = s := by
  obtain ⟨hv, hr⟩ := (Codes.of_read hread).append_inj rfl rfl h
  exact ⟨hv, (cons.inj hr).2⟩

theorem esc_inj {v w : Str} (h : esc v ++ '"' :: r = esc w ++ '"' :: s) : v = w ∧ r = s := quoted_inj readChar_escChar h

/-- What follows goes on with a character that is no digit. -/
def EndsNumber (r : Str) : Prop := r.head?.any (!·.isDigit)

theorem natText_inj_before {m n : Nat} (h : natText m ++ r = natText n ++ s) (hr : EndsNumber r) (hs : EndsNumber s) :
    m = n ∧ r = s := by
  have htake : ∀ (k : Nat) (t : Str), EndsNumber t → (natText k ++ t).takeWhile Char.isDigit = natText k := by
    intro k t ht
    rw [takeWhile_append_of_pos natText_isDigit]
    cases t with
    | nil => cases ht
    | cons c t => rw [takeWhile_cons_of_neg (by simpa [EndsNumber] using ht), append_nil]
  have hmn : m = n := natText_inj (by rw [← htake m r hr, h, htake n s hs])
  rw [hmn] at h
  exact ⟨hmn, append_cancel_left h⟩

/-! ## Objects -/

inductive Field
  | str (key value : Str)
  | num (key : Str) (value : UInt64)
  deriving DecidableEq, Repr

def Field.text : Field → Str
  | .str key value => field key value
  | .num key value => numField key value.toNat

/-- A field begins with its key; the value of a string begins with a quote and a number does not. -/
theorem codes_field : Codes (fun f : Field => ',' :: f.text) EndsNumber (· = ['}']) where
  inj {f g r s} hr hs h := by
    have hdigit : ∀ {n : Nat} {t u : Str}, natText n ++ t ≠ '"' :: u := by
      intro n t u hn
      cases hd : natText n with
      | nil => exact natText_ne_nil n hd
      | cons d ds =>
        rw [hd] at hn
        cases hn
        exact absurd (natText_isDigit (n := n) '"' (hd ▸ mem_cons_self)) (by decide)
    cases f <;> cases g <;>
      simp only [Field.text, field, numField, cons_append, nil_append, append_assoc, cons.injEq, true_and] at h
    case str.str key value key' value' =>
      obtain ⟨rfl, hvalue⟩ := esc_inj h
      obtain ⟨rfl, rfl⟩ := esc_inj (cons.inj (cons.inj hvalue).2).2
      exact ⟨rfl, rfl⟩
    case str.num key value key' value' =>
      obtain ⟨-, hvalue⟩ := esc_inj h
      exact absurd (cons.inj hvalue).2.symm hdigit
    case num.str key value key' value' =>
      obtain ⟨-, hvalue⟩ := esc_inj h
      exact absurd (cons.inj hvalue).2 hdigit
    case num.num key value key' value' =>
      obtain ⟨rfl, hrest⟩ := esc_inj h
      obtain ⟨hvalue, rfl⟩ := natText_inj_before (cons.inj hrest).2 hr hs
      rw [UInt64.toNat_inj.mp hvalue]
      exact ⟨rfl, rfl⟩
  next _ := rfl
  last h := by rw [h]; rfl
  stop h := by cases h

theorem commaJoined_cons (x : Str) (xs : List Str) : ',' :: commaJoined (x :: xs) = (x :: xs).flatMap (',' :: ·) := by
  induction xs generalizing x with
  | nil => simp [commaJoined, intercalate]
  | cons y ys ih => rw [flatMap_cons, ← ih, commaJoined, intercalate_cons_cons]; simp [commaJoined]

/-- The text of an object says which fields it has, in which order, whatever is in their keys and values. -/
theorem object_injective : Function.Injective (fun fs : List Field => object (fs.map Field.text)) := by
  intro fs gs h
  have hflat : ∀ (f : Field) (fs : List Field),
      object ((f :: fs).map Field.text) = '{' :: ((f :: fs).flatMap (fun f => ',' :: f.text) ++ ['}']).tail := by
    intro f fs
    rw [← flatMap_map Field.text (',' :: ·), map_cons, ← commaJoined_cons]
    rfl
  have hempty : ∀ (f : Field) (fs : List Field), object ((f :: fs).map Field.text) ≠ object [] := by
    intro f fs hobject
    rw [hflat] at hobject
    cases f <;> cases hobject
  cases fs with
  | nil =>
    cases gs with
    | nil => rfl
    | cons g gs => exact absurd h.symm (hempty g gs)
  | cons f fs =>
    cases gs with
    | nil => exact absurd h (hempty f fs)
    | cons g gs =>
      have htext := ((hflat f fs).symm.trans h).trans (hflat g gs)
      have hrest : (f :: fs).flatMap (fun f => ',' :: f.text) ++ ['}'] = (g :: gs).flatMap (fun f => ',' :: f.text) ++ ['}'] :=
        congrArg (',' :: ·) (cons.inj htext).2
      exact (codes_field.append_inj rfl rfl hrest).1

end Pulsate.Control
