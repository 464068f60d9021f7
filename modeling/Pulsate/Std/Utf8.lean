import Pulsate.Std.Str

/-!
# Bytes read as text

`String::from_utf8_lossy` reads a character after another. Bytes that are no character it replaces, by U+FFFD for each
longest piece that begins a character and breaks off.
-/

namespace Pulsate

open List

/-! ## ASCII -/

theorem Char.ofUInt8_toNat (b : UInt8) : (Char.ofUInt8 b).toNat = b.toNat := rfl

theorem utf8EncodeChar_ascii {c : Char} (h : c.toNat < 128) :
    ∃ b, String.utf8EncodeChar c = [b] ∧ Char.ofUInt8 b = c := by
  refine ⟨UInt8.ofNat c.toNat, ?_, ?_⟩
  · have hc : c.val.toNat ≤ 127 := Nat.lt_succ_iff.mp h
    simp only [String.utf8EncodeChar, if_pos hc]
    rfl
  · apply Char.ext
    apply UInt32.toNat_inj.mp
    have hb : (UInt8.ofNat c.toNat).toNat = c.toNat := by
      rw [UInt8.toNat_ofNat']; exact Nat.mod_eq_of_lt (by omega)
    exact (Char.ofUInt8_toNat _).trans hb

theorem utf8EncodeChar_high {c : Char} (h : 128 ≤ c.toNat) :
    ∀ b ∈ String.utf8EncodeChar c, 128 ≤ (Char.ofUInt8 b).toNat := by
  have hc : ¬ c.val.toNat ≤ 127 := Nat.not_le.mpr h
  have key : ∀ n, 128 ≤ n → n < 256 → 128 ≤ (Char.ofUInt8 (UInt8.ofNat n)).toNat := by
    intro n h1 h2
    rw [Char.ofUInt8_toNat, UInt8.toNat_ofNat', Nat.mod_eq_of_lt h2]
    exact h1
  simp only [String.utf8EncodeChar, if_neg hc]
  split
  · simp only [mem_cons, not_mem_nil, or_false, forall_eq_or_imp, forall_eq]
    exact ⟨key _ (by omega) (by omega), key _ (by omega) (by omega)⟩
  · split
    · simp only [mem_cons, not_mem_nil, or_false, forall_eq_or_imp, forall_eq]
      exact ⟨key _ (by omega) (by omega), key _ (by omega) (by omega), key _ (by omega) (by omega)⟩
    · simp only [mem_cons, not_mem_nil, or_false, forall_eq_or_imp, forall_eq]
      exact ⟨key _ (by omega) (by omega), key _ (by omega) (by omega), key _ (by omega) (by omega),
        key _ (by omega) (by omega)⟩

theorem ne_of_high {c a : Char} (h : 128 ≤ c.toNat) (ha : a.toNat < 128) : c ≠ a := by
  rintro rfl
  omega

/-- A byte of one character is never that of another one in ASCII. -/
theorem ofUInt8_ne {c a : Char} (ha : a.toNat < 128) (hc : c ≠ a) : ∀ b ∈ String.utf8EncodeChar c, Char.ofUInt8 b ≠ a := by
  by_cases hascii : c.toNat < 128
  · obtain ⟨b, hb, hbc⟩ := utf8EncodeChar_ascii hascii
    simpa [hb, hbc] using hc
  · exact fun b hb => ne_of_high (utf8EncodeChar_high (by omega) b hb) ha

namespace Str

/-! ## Reading -/

def isContinuation (b : UInt8) : Bool := 0x80 ≤ b && b ≤ 0xBF

/-- A character of three or four bytes may begin so. -/
def begins (lead second : UInt8) : Bool :=
  if lead = 0xE0 then 0xA0 ≤ second && second ≤ 0xBF
  else if lead = 0xED then 0x80 ≤ second && second ≤ 0x9F
  else if lead = 0xF0 then 0x90 ≤ second && second ≤ 0xBF
  else if lead = 0xF4 then 0x80 ≤ second && second ≤ 0x8F
  else 0xE1 ≤ lead && lead ≤ 0xF3 && isContinuation second

/-- How many bytes are replaced together, where no character can be read. -/
def brokenLen : List UInt8 → Nat
  | lead :: second :: rest =>
    if begins lead second then
      -- a third byte that fits a character of three would have completed it
      if 0xF0 ≤ lead && rest.head?.any isContinuation then 3 else 2
    else 1
  | _ => 1

def fromUtf8LossyFuel : Nat → List UInt8 → Str
  | 0, _ => []
  | _ + 1, [] => []
  | fuel + 1, b :: bs =>
    match (b :: bs).toByteArray.utf8DecodeChar? 0 with
    | some c => c :: fromUtf8LossyFuel fuel ((b :: bs).drop c.utf8Size)
    | none => '�' :: fromUtf8LossyFuel fuel ((b :: bs).drop (brokenLen (b :: bs)))

/-- `String::from_utf8_lossy`. -/
def fromUtf8Lossy (bytes : List UInt8) : Str := fromUtf8LossyFuel bytes.length bytes

theorem utf8DecodeChar?_cons (c : Char) (rest : List UInt8) :
    (String.utf8EncodeChar c ++ rest).toByteArray.utf8DecodeChar? 0 = some c := by
  rw [toByteArray_append]
  exact ByteArray.utf8DecodeChar?_utf8EncodeChar_append

theorem fromUtf8LossyFuel_bytes {s : Str} {fuel : Nat} (h : s.bytes.length ≤ fuel) :
    fromUtf8LossyFuel fuel s.bytes = s := by
  induction s generalizing fuel with
  | nil => cases fuel <;> rfl
  | cons c s ih =>
    have hpos : 0 < (String.utf8EncodeChar c).length := by
      rw [String.length_utf8EncodeChar]
      exact c.utf8Size_pos
    obtain ⟨b, bs, hbytes⟩ : ∃ b bs, bytes (c :: s) = b :: bs :=
      exists_cons_of_length_pos (by rw [bytes_cons, length_append]; omega)
    have hdecode : (b :: bs).toByteArray.utf8DecodeChar? 0 = some c := by
      rw [← hbytes, bytes_cons]
      exact utf8DecodeChar?_cons c (bytes s)
    have hdrop : (b :: bs).drop c.utf8Size = bytes s := by
      rw [← hbytes, bytes_cons, ← String.length_utf8EncodeChar, drop_left]
    cases fuel with
    | zero =>
      rw [hbytes] at h
      cases h
    | succ fuel =>
      rw [bytes_cons, length_append] at h
      rw [hbytes, fromUtf8LossyFuel, hdecode]
      show c :: fromUtf8LossyFuel fuel ((b :: bs).drop c.utf8Size) = c :: s
      rw [hdrop, ih (by omega)]

theorem fromUtf8Lossy_bytes (s : Str) : fromUtf8Lossy s.bytes = s := fromUtf8LossyFuel_bytes (Nat.le_refl _)

example : fromUtf8Lossy [0x61, 0xE2, 0x82, 0x62, 0xFF] = ['a', '�', 'b', '�'] := by decide

end Str

end Pulsate
