import Mathlib.Data.Nat.ModEq
import Pulsate.Std.Str

/-!
# Request ids (`pulsate-observe::ids`)

An id is a number of 128 bits, the time above the counter, in 26 digits of five bits.
-/

namespace Pulsate.Observe

def crockford : Str := "0123456789ABCDEFGHJKMNPQRSTVWXYZ"

/-- The loop of `encode`, from the last of the slots to the first. -/
def encodeSlots : Nat → Nat → Str → Str
  | 0, _, out => out
  | slots + 1, v, out => encodeSlots slots (v >>> 5) (crockford.getD (v &&& 0x1f) '0' :: out)

def encode (v : Nat) : Str := encodeSlots 26 v []

/-- The id for a reading of the clock, in milliseconds, and of the counter. -/
def requestId (nowMs ctr : UInt64) : Str :=
  let ms := nowMs.toNat &&& ((1 <<< 48) - 1)
  let low := (ctr.toNat * 0x9E3779B97F4A7C15) % 2 ^ 128 &&& ((1 <<< 80) - 1)
  encode ((ms <<< 80) ||| low)

/-! ## Digits -/

/-- The last `n` digits of a number, the highest first. -/
def digits : Nat → Nat → Str
  | 0, _ => []
  | n + 1, v => crockford.getD (v / 32 ^ n % 32) '0' :: digits n v

theorem length_digits (n v : Nat) : (digits n v).length = n := by
  induction n with
  | zero => rfl
  | succ n ih => exact congrArg (· + 1) ih

theorem digits_succ (n v : Nat) : digits (n + 1) v = digits n (v / 32) ++ [crockford.getD (v % 32) '0'] := by
  induction n with
  | zero =>
    show [crockford.getD (v / 32 ^ 0 % 32) '0'] = [crockford.getD (v % 32) '0']
    rw [pow_zero, Nat.div_one]
  | succ n ih => rw [digits, ih, digits, Nat.pow_succ', Nat.div_div_eq_div_mul]; rfl

theorem encodeSlots_eq (n v : Nat) (out : Str) : encodeSlots n v out = digits n v ++ out := by
  induction n generalizing v out with
  | zero => rfl
  | succ n ih =>
    have hlow : v &&& 0x1f = v % 32 := Nat.and_two_pow_sub_one_eq_mod v 5
    rw [encodeSlots, ih, digits_succ, List.append_assoc, hlow, Nat.shiftRight_eq_div_pow]
    rfl

theorem encode_eq (v : Nat) : encode v = digits 26 v := (encodeSlots_eq 26 v []).trans (List.append_nil _)

theorem crockford_lt {a b : Nat} (h : a < b) (hb : b < 32) : crockford.getD a '0' < crockford.getD b '0' := by
  have hall : ∀ b < 32, ∀ a < b, crockford.getD a '0' < crockford.getD b '0' := by decide
  exact hall b hb a h

theorem digits_lt {n v w : Nat} (h : v % 32 ^ n < w % 32 ^ n) : digits n v < digits n w := by
  induction n with
  | zero => simp [Nat.mod_one] at h
  | succ n ih =>
    rw [Nat.mod_pow_succ, Nat.mod_pow_succ] at h
    have hv := Nat.mod_lt v (Nat.pow_pos (n := n) (show 0 < 32 by decide))
    have hw := Nat.mod_lt w (Nat.pow_pos (n := n) (show 0 < 32 by decide))
    rw [digits, digits, List.cons_lt_cons_iff]
    rcases Nat.lt_trichotomy (v / 32 ^ n % 32) (w / 32 ^ n % 32) with hlt | heq | hgt
    · exact .inl (crockford_lt hlt (Nat.mod_lt _ (by decide)))
    · rw [heq] at h ⊢
      exact .inr ⟨rfl, ih (Nat.lt_of_add_lt_add_right h)⟩
    · have := Nat.mul_le_mul_left (32 ^ n) (Nat.succ_le_of_lt hgt)
      rw [Nat.mul_succ] at this
      omega

/-! ## Ids -/

/-- The number an id stands for. -/
def idValue (nowMs ctr : UInt64) : Nat := nowMs.toNat % 2 ^ 48 * 2 ^ 80 + ctr.toNat * 0x9E3779B97F4A7C15 % 2 ^ 80

theorem requestId_eq (nowMs ctr : UInt64) : requestId nowMs ctr = digits 26 (idValue nowMs ctr) := by
  have hms : nowMs.toNat &&& ((1 <<< 48) - 1) = nowMs.toNat % 2 ^ 48 := Nat.and_two_pow_sub_one_eq_mod _ 48
  have hlow : (ctr.toNat * 0x9E3779B97F4A7C15) % 2 ^ 128 &&& ((1 <<< 80) - 1) =
      ctr.toNat * 0x9E3779B97F4A7C15 % 2 ^ 80 :=
    (Nat.and_two_pow_sub_one_eq_mod _ 80).trans (Nat.mod_mod_of_dvd _ (Nat.pow_dvd_pow 2 (by decide)))
  rw [requestId, encode_eq, hms, hlow, ← Nat.shiftLeft_add_eq_or_of_lt (Nat.mod_lt _ (by decide)), Nat.shiftLeft_eq]
  rfl

theorem idValue_lt (nowMs ctr : UInt64) : idValue nowMs ctr < 32 ^ 26 := by
  have hms := Nat.mod_lt nowMs.toNat (show 0 < 2 ^ 48 by decide)
  have hlow := Nat.mod_lt (ctr.toNat * 0x9E3779B97F4A7C15) (show 0 < 2 ^ 80 by decide)
  rw [idValue]
  omega

theorem requestId_lt {now now' ctr ctr' : UInt64} (h : idValue now ctr < idValue now' ctr') :
    requestId now ctr < requestId now' ctr' := by
  rw [requestId_eq, requestId_eq]
  apply digits_lt
  rwa [Nat.mod_eq_of_lt (idValue_lt now ctr), Nat.mod_eq_of_lt (idValue_lt now' ctr')]

/-- The factor is odd, so that counters are told apart by the bits that are kept. -/
theorem eq_of_idValue_eq {now now' ctr ctr' : UInt64} (h : idValue now ctr = idValue now' ctr') : ctr = ctr' := by
  have hlow := congrArg (· % 2 ^ 80) h
  simp only [idValue, Nat.mul_add_mod', Nat.mod_mod] at hlow
  have hmod : ctr.toNat % 2 ^ 80 = ctr'.toNat % 2 ^ 80 :=
    Nat.ModEq.cancel_right_of_coprime (c := 0x9E3779B97F4A7C15) (Nat.Coprime.pow_left 80 (by decide)) hlow
  have hlt : ∀ c : UInt64, c.toNat < 2 ^ 80 := fun c => c.toNat_lt.trans (by decide)
  rw [Nat.mod_eq_of_lt (hlt ctr), Nat.mod_eq_of_lt (hlt ctr')] at hmod
  exact UInt64.toNat_inj.mp hmod

/-- Two ids differ where their counters do, whatever the clock reads; every id has 26 characters; and the id of an earlier
millisecond comes first. -/
theorem request_ids (now now' ctr ctr' : UInt64) :
    (requestId now ctr).length = 26 ∧ (ctr ≠ ctr' → requestId now ctr ≠ requestId now' ctr') ∧
      (now.toNat % 2 ^ 48 < now'.toNat % 2 ^ 48 → requestId now ctr < requestId now' ctr') := by
  refine ⟨by rw [requestId_eq, length_digits], fun hne => ?_, fun hms => requestId_lt ?_⟩
  · rcases Nat.lt_trichotomy (idValue now ctr) (idValue now' ctr') with hlt | heq | hgt
    · exact ne_of_lt (requestId_lt hlt)
    · exact absurd (eq_of_idValue_eq heq) hne
    · exact ne_of_gt (requestId_lt hgt)
  · have hlow := Nat.mod_lt (ctr.toNat * 0x9E3779B97F4A7C15) (show 0 < 2 ^ 80 by decide)
    rw [idValue, idValue]
    omega

theorem request_ids_first : requestId 0 0 ≠ requestId 0 1 ∧ requestId 0 0 < requestId 1 0 :=
  ⟨(request_ids 0 0 0 1).2.1 (by decide), (request_ids 0 1 0 0).2.2 (by decide)⟩

end Pulsate.Observe
