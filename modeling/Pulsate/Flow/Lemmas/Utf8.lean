import Pulsate.Flow.Lexer
import Pulsate.Std.Utf8
import Mathlib.Tactic.IntervalCases

/-!
# The lexer's loops over bytes and over characters

Every loop of the lexer decides on ASCII characters only. The bytes of other characters are all above
127, so a loop over the bytes of a text stops exactly where the same loop over its characters does.
-/

namespace Pulsate

open Pulsate.Flow List Str

/-! ## The encoding of one character -/

theorem utf8EncodeChar_lead (c : Char) :
    ∃ b bs, String.utf8EncodeChar c = b :: bs ∧ Lexer.isContinuation b = false ∧
      ∀ x ∈ bs, Lexer.isContinuation x := by
  have hlead : ∀ n, n < 256 → ¬ (128 ≤ n ∧ n < 192) → Lexer.isContinuation (UInt8.ofNat n) = false := by
    decide +kernel
  have hcont : ∀ n, n < 64 → Lexer.isContinuation (UInt8.ofNat (n + 128)) := by
    decide +kernel
  simp only [String.utf8EncodeChar]
  split
  · exact ⟨_, _, rfl, hlead _ (by omega) (by omega), by simp⟩
  · split
    · refine ⟨_, _, rfl, hlead _ (by omega) (by omega), ?_⟩
      simp only [mem_singleton, forall_eq]
      exact hcont _ (by omega)
    · split
      · refine ⟨_, _, rfl, hlead _ (by omega) (by omega), ?_⟩
        simp only [mem_cons, not_mem_nil, or_false, forall_eq_or_imp, forall_eq]
        exact ⟨hcont _ (by omega), hcont _ (by omega)⟩
      · refine ⟨_, _, rfl, hlead _ (by omega) (by omega), ?_⟩
        simp only [mem_cons, not_mem_nil, or_false, forall_eq_or_imp, forall_eq]
        exact ⟨hcont _ (by omega), hcont _ (by omega), hcont _ (by omega)⟩

theorem utf8EncodeChar_length (c : Char) : (String.utf8EncodeChar c).length = c.utf8Size := by
  simp [String.length_utf8EncodeChar]

theorem Str.len_eq (s : Str) : s.len = s.bytes.length := by
  induction s with
  | nil => rfl
  | cons c s ih =>
    simp only [Str.len, bytes_cons, length_append, utf8EncodeChar_length, map_cons,
      sum_cons] at ih ⊢
    rw [ih]

/-- The first byte of a string, read as a character, is an ASCII character exactly if the string starts
with that character. -/
theorem Str.head_bytes {s : Str} {a : Char} (ha : a.toNat < 128) :
    s.bytes.head?.map Char.ofUInt8 = some a ↔ s.head? = some a := by
  cases s with
  | nil => simp
  | cons c s =>
    by_cases hc : c.toNat < 128
    · obtain ⟨b, hb, hbc⟩ := utf8EncodeChar_ascii hc
      simp [hb, hbc]
    · obtain ⟨b, bs, hb, _⟩ := utf8EncodeChar_lead c
      have hh := utf8EncodeChar_high (c := c) (by omega) b (by rw [hb]; simp)
      constructor
      · intro h
        simp only [bytes_cons, hb, cons_append, head?_cons, Option.map_some,
          Option.some.injEq] at h
        exact absurd h (ne_of_high hh ha)
      · intro h
        simp only [head?_cons, Option.some.injEq] at h
        exact absurd h (ne_of_high (c := c) (by omega) ha)

/-! ## Loops -/

namespace Flow

theorem takeWhile_bytes {p : Char → Bool} (hp : ∀ c : Char, 128 ≤ c.toNat → p c) (s : Str) :
    s.bytes.takeWhile (fun b => p (Char.ofUInt8 b)) = Str.bytes (s.takeWhile p) := by
  induction s with
  | nil => rfl
  | cons c s ih =>
    by_cases hc : c.toNat < 128
    · obtain ⟨b, hb, hbc⟩ := utf8EncodeChar_ascii hc
      simp only [bytes_cons, hb, singleton_append, takeWhile_cons, hbc]
      split
      · simp [hb, ih]
      · rfl
    · have hh := utf8EncodeChar_high (c := c) (by omega)
      rw [bytes_cons, takeWhile_append_of_pos (fun b hb => hp _ (hh b hb)), ih,
        takeWhile_cons, hp c (by omega)]
      rfl

theorem isAtomEnd_high {c : Char} (h : 128 ≤ c.toNat) : isAtomEnd c = false := by
  have hne : ∀ {a : Char}, a.toNat < 128 → (c == a) = false := by
    intro a ha
    simpa using ne_of_high h ha
  simp only [isAtomEnd, isHorizontal, isSeparator]
  simp only [hne (a := ' ') (by decide), hne (a := '\t') (by decide), hne (a := '\r') (by decide),
    hne (a := '\n') (by decide), hne (a := ';') (by decide), hne (a := '#') (by decide),
    hne (a := '{') (by decide), hne (a := '}') (by decide), hne (a := '(') (by decide),
    hne (a := ')') (by decide), hne (a := '[') (by decide), hne (a := ']') (by decide),
    hne (a := ',') (by decide), hne (a := '=') (by decide), hne (a := '"') (by decide), Bool.or_self]

theorem isHorizontal_high {c : Char} (h : 128 ≤ c.toNat) : isHorizontal c = false := by
  have := isAtomEnd_high h
  simp only [isAtomEnd, Bool.or_eq_false_iff] at this
  tauto

theorem isSeparator_high {c : Char} (h : 128 ≤ c.toNat) : isSeparator c = false := by
  have := isAtomEnd_high h
  simp only [isAtomEnd, Bool.or_eq_false_iff] at this
  tauto

theorem commentLen_bytes (s : Str) :
    commentLen Char.ofUInt8 s.bytes = (Str.bytes (s.take (commentLen id s))).length := by
  have h := takeWhile_bytes (p := fun c => c ≠ '\n')
    (fun c hc => by simpa using ne_of_high hc (by decide)) s
  have ht : s.take (s.takeWhile (fun c => decide (c ≠ '\n'))).length =
      s.takeWhile (fun c => decide (c ≠ '\n')) :=
    (prefix_iff_eq_take.mp (List.takeWhile_prefix _)).symm
  simp only [commentLen, id_eq]
  rw [ht, ← h]

theorem skipHorizontalLen_bytes (s : Str) :
    skipHorizontalLen Char.ofUInt8 s.bytes =
      (Str.bytes (s.take (skipHorizontalLen id s))).length := by
  induction s with
  | nil => rfl
  | cons c s ih =>
    by_cases hc : c.toNat < 128
    · obtain ⟨b, hb, hbc⟩ := utf8EncodeChar_ascii hc
      have hcomment := commentLen_bytes (c :: s)
      rw [bytes_cons, hb, singleton_append] at hcomment ⊢
      simp only [skipHorizontalLen, hbc, id_eq]
      split
      · simp [hb, ih]
      · split
        · exact hcomment
        · rfl
    · obtain ⟨b, bs, hb, _⟩ := utf8EncodeChar_lead c
      have hh := utf8EncodeChar_high (c := c) (by omega) b (by rw [hb]; simp)
      have h1 : Char.ofUInt8 b ≠ '#' := ne_of_high hh (by decide)
      have h2 : c ≠ '#' := ne_of_high (c := c) (by omega) (by decide)
      rw [bytes_cons, hb, cons_append]
      simp [skipHorizontalLen, isHorizontal_high hh, isHorizontal_high (c := c) (by omega), h1, h2]

theorem separatorRunLen_high {bs rest : List UInt8} (h : ∀ b ∈ bs, 128 ≤ (Char.ofUInt8 b).toNat) :
    separatorRunLen Char.ofUInt8 true (bs ++ rest) =
      bs.length + separatorRunLen Char.ofUInt8 true rest := by
  induction bs with
  | nil => simp
  | cons b bs ih =>
    have hb : Char.ofUInt8 b ≠ '\n' := ne_of_high (h b (by simp)) (by decide)
    simp only [cons_append, separatorRunLen, if_true, hb, ne_eq, not_false_eq_true,
      decide_true, ih (fun x hx => h x (by simp [hx])), length_cons]
    omega

theorem separatorRunLen_bytes (inComment : Bool) (s : Str) :
    separatorRunLen Char.ofUInt8 inComment s.bytes =
      (Str.bytes (s.take (separatorRunLen id inComment s))).length := by
  induction s generalizing inComment with
  | nil => rfl
  | cons c s ih =>
    by_cases hc : c.toNat < 128
    · obtain ⟨b, hb, hbc⟩ := utf8EncodeChar_ascii hc
      rw [bytes_cons, hb, singleton_append]
      simp only [separatorRunLen, hbc, id_eq]
      split
      · simp [hb, ih]
      · split
        · simp [hb, ih]
        · split
          · simp [hb, ih]
          · rfl
    · have hh := utf8EncodeChar_high (c := c) (by omega)
      have hn : c ≠ '\n' := ne_of_high (c := c) (by omega) (by decide)
      have hg : c ≠ '#' := ne_of_high (c := c) (by omega) (by decide)
      cases inComment with
      | true =>
        rw [bytes_cons, separatorRunLen_high hh, ih]
        simp [separatorRunLen, hn]
      | false =>
        obtain ⟨b, bs, hb, _⟩ := utf8EncodeChar_lead c
        have hb' := hh b (by rw [hb]; simp)
        have h1 : Char.ofUInt8 b ≠ '#' := ne_of_high hb' (by decide)
        rw [bytes_cons, hb, cons_append]
        simp [separatorRunLen, isHorizontal_high hb', isSeparator_high hb', h1, hg,
          isHorizontal_high (c := c) (by omega), isSeparator_high (c := c) (by omega)]

theorem atomLen_high {bs rest : List UInt8} (h : ∀ b ∈ bs, 128 ≤ (Char.ofUInt8 b).toNat) :
    atomLen Char.ofUInt8 (bs ++ rest) = bs.length + atomLen Char.ofUInt8 rest := by
  induction bs with
  | nil => simp
  | cons b bs ih =>
    have hb := h b (by simp)
    have h1 : Char.ofUInt8 b ≠ '~' := ne_of_high hb (by decide)
    simp only [cons_append, atomLen, isAtomEnd_high hb, Bool.false_or,
      beq_eq_false_iff_ne.mpr h1, Bool.false_and, Bool.false_eq_true, if_false,
      ih (fun x hx => h x (by simp [hx])), length_cons]
    omega

theorem atomLen_bytes (s : Str) :
    atomLen Char.ofUInt8 s.bytes = (Str.bytes (s.take (atomLen id s))).length := by
  induction s with
  | nil => rfl
  | cons c s ih =>
    by_cases hc : c.toNat < 128
    · obtain ⟨b, hb, hbc⟩ := utf8EncodeChar_ascii hc
      have hhead : ((Str.bytes s).head?.map Char.ofUInt8 == some '>') = (s.head?.map id == some '>') := by
        rw [Option.map_id_apply, Bool.eq_iff_iff, beq_iff_eq, beq_iff_eq]
        exact Str.head_bytes (by decide)
      rw [bytes_cons, hb, singleton_append]
      simp only [atomLen, hbc, hhead, id_eq]
      split
      · rfl
      · simp [hb, ih]
    · have hh := utf8EncodeChar_high (c := c) (by omega)
      have h1 : (c == '~') = false := beq_eq_false_iff_ne.mpr (ne_of_high (by omega) (by decide))
      rw [bytes_cons, atomLen_high hh, ih]
      simp [atomLen, isAtomEnd_high (c := c) (by omega), h1]

end Flow

end Pulsate
