import Pulsate.Lib.Lists
import Pulsate.Waf.Lemmas.Normalize

/-!
# Targets written otherwise

A pass of decoding takes a layer of encoding off. What stands for a blank is a run of gaps, and a text without the begin of a
comment leads to a place outside of the comments.
-/

namespace Pulsate.Waf

open Relation List Str

variable {bs rest : List UInt8} {s t : Str}

/-! ## Layers of encoding -/

theorem percentDecodeBytes_plain {b : UInt8} (hpercent : b ≠ 0x25) (hplus : b ≠ 0x2B) (rest : List UInt8) :
    percentDecodeBytes (b :: rest) = b :: percentDecodeBytes rest := by
  match rest with
  | [] => simp [percentDecodeBytes, hplus]
  | [_] => simp [percentDecodeBytes, hplus]
  | _ :: _ :: _ => simp [percentDecodeBytes, hpercent, hplus]

theorem percentDecodeBytes_append (h : ∀ b ∈ bs, b ≠ 0x25 ∧ b ≠ 0x2B) (rest : List UInt8) :
    percentDecodeBytes (bs ++ rest) = bs ++ percentDecodeBytes rest := by
  induction bs with
  | nil => rfl
  | cons b bs ih =>
    rw [forall_mem_cons] at h
    rw [cons_append, percentDecodeBytes_plain h.1.1 h.1.2, ih h.2]
    rfl

theorem toDigit_ascii {c : Char} {n : Nat} (h : IpAddr.toDigit 16 c = some n) : c.toNat < 128 := by
  by_contra hc
  have hnot {a : Char} (ha : a.toNat < 128) : ¬ c ≤ a := fun hle => hc (lt_of_le_of_lt (UInt32.le_iff_toNat_le.mp hle) ha)
  simp [IpAddr.toDigit, hnot (a := '9') (by decide), hnot (a := 'f') (by decide), hnot (a := 'F') (by decide)] at h

theorem percentDecodeBytes_escape {b : UInt8} {e : Str} (h : IsEscape b e) (rest : List UInt8) :
    percentDecodeBytes (e.bytes ++ rest) = b :: percentDecodeBytes rest := by
  obtain ⟨hi, lo, rfl, hhi, hlo⟩ := h
  obtain ⟨x, hx, hxc⟩ := utf8EncodeChar_ascii (toDigit_ascii hhi)
  obtain ⟨y, hy, hyc⟩ := utf8EncodeChar_ascii (toDigit_ascii hlo)
  have hbytes : Str.bytes ['%', hi, lo] = [0x25, x, y] := by
    rw [bytes_cons, bytes_cons, bytes_cons, hx, hy]
    rfl
  have hvalue : b.toNat / 16 * 16 + b.toNat % 16 = b.toNat := by omega
  rw [hbytes]
  simp [percentDecodeBytes, hexValue, hxc, hyc, hhi, hlo, hvalue]

theorem percentDecodeBytes_escapes {es : List Str} (h : List.Forall₂ IsEscape bs es) (rest : List UInt8) :
    percentDecodeBytes (Str.bytes es.flatten ++ rest) = bs ++ percentDecodeBytes rest := by
  induction h with
  | nil => rfl
  | cons he _ ih => rw [flatten_cons, bytes_append, append_assoc, percentDecodeBytes_escape he, ih]; rfl

theorem percentDecode_of_encodes (h : Encodes s t) (hplus : '+' ∉ s) : percentDecode t = s := by
  have hbytes : percentDecodeBytes t.bytes = s.bytes := by
    induction h with
    | nil => rfl
    | @keep c s t hc h ih =>
      rw [mem_cons, not_or] at hplus
      rw [bytes_cons, bytes_cons, percentDecodeBytes_append, ih hplus.2]
      intro b hb
      exact ⟨fun h => ofUInt8_ne (by decide) hc b hb (by rw [h]; rfl),
        fun h => ofUInt8_ne (by decide) (Ne.symm hplus.1) b hb (by rw [h]; rfl)⟩
    | @escape c es s t hes h ih =>
      rw [mem_cons, not_or] at hplus
      rw [bytes_append, percentDecodeBytes_escapes hes, ih hplus.2, bytes_cons]
  rw [percentDecode, hbytes, fromUtf8Lossy_bytes]

theorem Encodes.no_plus (h : Encodes s t) (hplus : '+' ∉ s) : '+' ∉ t := by
  have hdigit {c : Char} {n : Nat} (h : IpAddr.toDigit 16 c = some n) : '+' ≠ c := by
    rintro rfl
    cases h
  induction h with
  | nil => exact hplus
  | keep hc h ih =>
    rw [mem_cons, not_or] at hplus ⊢
    exact ⟨hplus.1, ih hplus.2⟩
  | escape hes h ih =>
    rw [mem_cons, not_or] at hplus
    rw [mem_append, not_or]
    refine ⟨?_, ih hplus.2⟩
    rintro hmem
    obtain ⟨e, he, hmem⟩ := mem_flatten.mp hmem
    obtain ⟨b, -, hi, lo, rfl, hhi, hlo⟩ := Lib.exists_right_of_forall₂ hes.flip he
    simp [hdigit hhi, hdigit hlo] at hmem

theorem decodePasses_fixed (h : percentDecode s = s) (passes : Nat) : decodePasses passes s = s := by
  cases passes with
  | zero => rfl
  | succ passes => rw [decodePasses, h, if_pos rfl]

theorem decodePasses_of_encodesTimes {n passes : Nat} (h : EncodesTimes n s t) (hplus : '+' ∉ s) (hs : percentDecode s = s)
    (hn : n ≤ passes) : decodePasses passes t = s ∧ '+' ∉ t := by
  induction h generalizing passes with
  | zero => exact ⟨decodePasses_fixed hs passes, hplus⟩
  | @succ n s t u h hlayer ih =>
    obtain ⟨passes, rfl⟩ := Nat.exists_eq_add_of_le' (Nat.lt_of_lt_of_le n.succ_pos hn)
    obtain ⟨hinner, hplus'⟩ := ih hplus hs (Nat.le_of_succ_le_succ hn)
    have hdecode := percentDecode_of_encodes hlayer hplus'
    refine ⟨?_, hlayer.no_plus hplus'⟩
    rw [decodePasses, hdecode]
    split
    · rename_i heq
      -- nothing was encoded here, so there was nothing to encode further inside either
      subst heq
      exact (decodePasses_fixed hdecode passes).symm.trans hinner
    · exact hinner

/-! ## Separators -/

/-- The bytes in lower case. -/
def lowered (s : Str) : List UInt8 := Str.bytes (Str.toAsciiLowercase s)

theorem lowered_append (s t : Str) : lowered (s ++ t) = lowered s ++ lowered t := by
  simp [lowered, Str.toAsciiLowercase]

theorem lowered_cons (c : Char) (s : Str) : lowered (c :: s) = String.utf8EncodeChar c.toLower ++ lowered s := by
  simp [lowered, Str.toAsciiLowercase]

theorem mem_lowered_ne {c a : Char} {n : UInt8} (hn : Char.ofUInt8 n = a) (ha : a.toNat < 128) (hlower : a.isLower = false)
    (hc : c ≠ a) : ∀ b ∈ String.utf8EncodeChar c.toLower, b ≠ n := by
  rintro b hb rfl
  exact ofUInt8_ne ha (fun h => hc (eq_of_toLower hlower h)) b hb hn

theorem head?_lowered_ne {a : Char} {n : UInt8} (hn : Char.ofUInt8 n = a) (ha : a.toNat < 128) (hlower : a.isLower = false)
    (hs : s.head? ≠ some a) (hrest : s = [] → rest.head? ≠ some n) : (lowered s ++ rest).head? ≠ some n := by
  cases s with
  | nil => exact hrest rfl
  | cons c s =>
    obtain ⟨b, bs, hb⟩ := exists_cons_of_ne_nil (@String.utf8EncodeChar_ne_nil c.toLower)
    have hne := mem_lowered_ne hn ha hlower (c := c) (by simpa using hs) b (by simp [hb])
    simpa [lowered_cons, hb] using hne

theorem afterComment_skip (h : ∀ b ∈ bs, b ≠ 0x2A) : afterComment (bs ++ rest) = afterComment rest := by
  induction bs with
  | nil => rfl
  | cons b bs ih =>
    rw [forall_mem_cons] at h
    rw [cons_append, afterComment.eq_3, ih h.2]
    rintro r rfl -
    exact h.1 rfl

theorem afterComment_star (h : rest.head? ≠ some 0x2F) : afterComment (0x2A :: rest) = afterComment rest := by
  apply afterComment.eq_3
  rintro r - rfl
  exact h rfl

/-- A comment ends where it is closed. -/
theorem afterComment_body {body : Str} (h : ¬ "*/" <:+: body) (rest : List UInt8) :
    afterComment (lowered body ++ 0x2A :: 0x2F :: rest) = rest := by
  induction body with
  | nil => rfl
  | cons c body ih =>
    have hbody := ih (fun hin => h (infix_cons hin))
    rw [lowered_cons, append_assoc]
    by_cases hc : c = '*'
    · subst hc
      have hhead : body.head? ≠ some '/' := by
        intro hhead
        obtain ⟨body, rfl⟩ := head?_eq_some_iff.mp hhead
        exact h (prefix_append ['*', '/'] body).isInfix
      exact (afterComment_star (head?_lowered_ne rfl (by decide) (by decide) hhead (by simp))).trans hbody
    · rw [afterComment_skip (mem_lowered_ne rfl (by decide) (by decide) hc), hbody]

theorem Separates.gap {p : Str} (h : Separates p) (rest : List UInt8) : Gap (lowered p ++ rest) rest := by
  cases h with
  | @blank c hascii hc =>
    have hlower : c.toLower = c := 
      forall_ascii (P := fun c => Str.isWhitespace c → c.toLower = c) (by decide) c hascii hc
    obtain ⟨b, hb, hbc⟩ := utf8EncodeChar_ascii hascii
    rw [lowered_cons, hlower, hb]
    exact .blank (by rw [isBlank, hbc, hc])
  | @comment body h =>
    have hbytes : lowered ("/*" ++ body ++ "*/") ++ rest = 0x2F :: 0x2A :: (lowered body ++ 0x2A :: 0x2F :: rest) := by
      rw [lowered_append, lowered_append, append_assoc, append_assoc]
      rfl
    rw [hbytes]
    have hgap := @Gap.comment (lowered body ++ 0x2A :: 0x2F :: rest)
    rwa [afterComment_body h] at hgap

theorem gaps_of_separates {pieces : List Str} (hne : pieces ≠ []) (h : ∀ p ∈ pieces, Separates p) (rest : List UInt8) :
    TransGen Gap (lowered pieces.flatten ++ rest) rest := by
  induction pieces with
  | nil => exact absurd rfl hne
  | cons p pieces ih =>
    rw [forall_mem_cons] at h
    have hgap := h.1.gap (lowered pieces.flatten ++ rest)
    rw [flatten_cons, lowered_append, append_assoc]
    by_cases hnil : pieces = []
    · subst hnil
      exact .single hgap
    · exact .head hgap (ih hnil h.2)

/-- A letter that is read as it is. -/
def IsLetter (c : Char) : Prop := c.toNat < 128 ∧ Str.isWhitespace c = false ∧ c ≠ '/' ∧ c ≠ '*'

instance decidableIsLetter (c : Char) : Decidable (IsLetter c) := inferInstanceAs (Decidable (_ ∧ _))

theorem reads_of_disguises {text : Str} (h : Disguises text s) (hletters : ∀ c ∈ text, c = ' ' ∨ IsLetter c) (rest : List UInt8) :
    Reads text (lowered s ++ rest) := by
  induction h with
  | nil => exact .nil
  | @letter c d text s hc hcase h ih =>
    rw [forall_mem_cons] at hletters
    obtain ⟨hascii, hblank, hslash, -⟩ := hletters.1.resolve_left hc
    obtain ⟨b, hb, hbc⟩ := utf8EncodeChar_ascii hascii
    rw [lowered_cons, hcase, hb, ← hbc]
    refine .letter ⟨?_, ?_⟩ (ih hletters.2)
    · rw [isBlank, hbc, hblank]
    · rintro rfl
      exact absurd hbc.symm hslash
  | blank hne hpieces h ih =>
    rw [forall_mem_cons] at hletters
    rw [lowered_append, append_assoc]
    exact .blank (gaps_of_separates hne hpieces _) (ih hletters.2)

theorem outside_append (h : ∀ b ∈ bs, b ≠ 0x2F) (rest : List UInt8) : Outside (bs ++ rest) rest := by
  induction bs with
  | nil => exact .refl
  | cons b bs ih =>
    rw [forall_mem_cons] at h
    refine .head ?_ (ih h.2)
    by_cases hblank : isBlank b
    · exact .inl (.blank hblank)
    · exact .inr ⟨b, ⟨by simpa using hblank, fun hb => absurd hb h.1⟩, rfl⟩

theorem outside_lowered {pre : Str} (h : ¬ "/*" <:+: pre) (hrest : rest.head? ≠ some 0x2A) :
    Outside (lowered pre ++ rest) rest := by
  induction pre with
  | nil => exact .refl
  | cons c pre ih =>
    have hpre := ih (fun hin => h (infix_cons hin))
    rw [lowered_cons, append_assoc]
    by_cases hc : c = '/'
    · subst hc
      have hhead : pre.head? ≠ some '*' := by
        intro hhead
        obtain ⟨pre, rfl⟩ := head?_eq_some_iff.mp hhead
        exact h (prefix_append ['/', '*'] pre).isInfix
      refine .head (.inr ⟨0x2F, ⟨by decide, fun _ => ?_⟩, rfl⟩) hpre
      exact head?_lowered_ne rfl (by decide) (by decide) hhead (fun _ => hrest)
    · exact (outside_append (mem_lowered_ne rfl (by decide) (by decide) hc) _).trans hpre

theorem head?_disguised_ne {c : Char} {text : Str} (h : Disguises (c :: text) s) (hc : c ≠ ' ') (hletter : IsLetter c)
    (rest : List UInt8) : (lowered s ++ rest).head? ≠ some 0x2A := by
  cases h with
  | @letter _ d _ s _ hcase h =>
    obtain ⟨b, hb, hbc⟩ := utf8EncodeChar_ascii hletter.1
    rw [lowered_cons, hcase, hb]
    rintro ⟨⟩
    exact hletter.2.2.2 hbc.symm
  | blank => exact absurd rfl hc

end Pulsate.Waf
