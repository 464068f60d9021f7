import Pulsate.Waf.Audit
import Mathlib.Data.List.Infix
import Mathlib.Tactic.NormNum

/-!
# What an accepted chain determines

The message of an entry is its predecessor's hash, eight bytes of sequence number and the event, written
one after another. Between entries that both have a predecessor it parses in one way only; the first
entry has no predecessor, and a sequence number read from hash text is never zero.
-/

namespace Pulsate.Waf

open List Option Str

variable {mac : List UInt8 → List UInt8}

variable {i : Nat} {e : AuditEntry}

/-! ## Encodings -/

theorem toLeBytes_length (n : UInt64) : (toLeBytes n).length = 8 := by simp [toLeBytes]

theorem toLeBytes_inj {m n : UInt64} (h : toLeBytes m = toLeBytes n) : m = n := by
  have hb : ∀ i < 8, m.toNat / 256 ^ i % 256 = n.toNat / 256 ^ i % 256 := by
    intro i hi
    have := congrArg (fun l => l[i]?) h
    simp only [toLeBytes, getElem?_map, getElem?_range hi, map_some,
      Option.some.injEq] at this
    simpa using congrArg UInt8.toNat this
  have hm := m.toNat_lt
  have hn := n.toNat_lt
  have h0 := hb 0 (by omega)
  have h1 := hb 1 (by omega)
  have h2 := hb 2 (by omega)
  have h3 := hb 3 (by omega)
  have h4 := hb 4 (by omega)
  have h5 := hb 5 (by omega)
  have h6 := hb 6 (by omega)
  have h7 := hb 7 (by omega)
  norm_num at h0 h1 h2 h3 h4 h5 h6 h7
  apply UInt64.toNat_inj.mp
  omega

theorem hexDigit_inj : ∀ a < 16, ∀ b < 16, hexDigit a = hexDigit b → a = b := by decide

theorem hexDigit_ascii : ∀ a < 16, ∃ b : UInt8, b ≠ 0 ∧ String.utf8EncodeChar (hexDigit a) = [b] := by
  intro a ha
  refine ⟨(String.utf8EncodeChar (hexDigit a)).headD 0, ?_⟩
  revert a
  decide

theorem hex_cons (b : UInt8) (bs : List UInt8) :
    hex (b :: bs) = hexDigit (b.toNat / 16) :: hexDigit (b.toNat % 16) :: hex bs := rfl

theorem hex_inj : ∀ {a b : List UInt8}, hex a = hex b → a = b
  | [], [], _ => rfl
  | [], _ :: _, h => by simp [hex] at h
  | _ :: _, [], h => by simp [hex] at h
  | x :: a, y :: b, h => by
    simp only [hex_cons, List.cons.injEq] at h
    obtain ⟨h1, h2, h3⟩ := h
    have hx := x.toNat_lt
    have hy := y.toNat_lt
    have e1 := hexDigit_inj _ (by omega) _ (by omega) h1
    have e2 := hexDigit_inj _ (by omega) _ (by omega) h2
    have e : x.toNat = y.toNat := by omega
    rw [UInt8.toNat_inj.mp e, hex_inj h3]

theorem hex_bytes (bs : List UInt8) :
    (hex bs).bytes.length = 2 * bs.length ∧ ∀ b ∈ (hex bs).bytes, b ≠ 0 := by
  induction bs with
  | nil => simp [hex]
  | cons x bs ih =>
    have hx := x.toNat_lt
    obtain ⟨b1, hb1, e1⟩ := hexDigit_ascii (x.toNat / 16) (by omega)
    obtain ⟨b2, hb2, e2⟩ := hexDigit_ascii (x.toNat % 16) (by omega)
    rw [hex_cons, bytes_cons, bytes_cons, e1, e2]
    refine ⟨by simp [ih.1]; omega, fun b hb => ?_⟩
    simp only [cons_append, nil_append, mem_cons] at hb
    rcases hb with rfl | rfl | hb
    · exact hb1
    · exact hb2
    · exact ih.2 b hb

/-! ## Parsing a message -/

variable {a b : AuditEntry}

theorem message_inj (hl : a.prevHash.bytes.length = b.prevHash.bytes.length)
    (h : a.message = b.message) :
    a.prevHash = b.prevHash ∧ a.seq = b.seq ∧ a.event = b.event := by
  simp only [AuditEntry.message, append_assoc] at h
  obtain ⟨hp, h⟩ := append_inj h hl
  obtain ⟨hs, he⟩ := append_inj h (by rw [toLeBytes_length, toLeBytes_length])
  exact ⟨bytes_inj hp, toLeBytes_inj hs, bytes_inj he⟩

/-- A message without a predecessor and with sequence number 0 starts with a zero byte, one with a
predecessor does not. -/
theorem message_ne {tag : List UInt8} (ht : tag ≠ []) (ha : a.prevHash = []) (hs : a.seq = 0)
    (hb : b.prevHash = hex tag) : a.message ≠ b.message := by
  intro h
  have h0 := congrArg List.head? h
  obtain ⟨x, tag, rfl⟩ := exists_cons_of_ne_nil ht
  obtain ⟨hlen, hnz⟩ := hex_bytes (x :: tag)
  rw [AuditEntry.message, AuditEntry.message, ha, hs, hb] at h0
  cases hh : (hex (x :: tag)).bytes with
  | nil => simp [hh] at hlen
  | cons y ys =>
    rw [hh] at h0
    have hy : (0 : UInt8) = y := by simpa [toLeBytes, range_succ] using h0
    exact hnz y (by rw [hh]; simp) hy.symm

/-! ## Accepted chains -/

/-- The hash of the entry before position `i`, or the starting one. -/
def prevOf (prev : Str) (entries : List AuditEntry) : Nat → Option Str
  | 0 => some prev
  | i + 1 => entries[i]?.map AuditEntry.hash

theorem verifyFrom_get {prev : Str} {L : List AuditEntry} (h : verifyFrom mac prev L) (hi : L[i]? = some a) :
    a.hash = hex (mac a.message) ∧ prevOf prev L i = some a.prevHash := by
  induction L generalizing prev i with
  | nil => simp at hi
  | cons e es ih =>
    simp only [verifyFrom] at h
    split at h
    · cases h
    · rename_i hc
      simp only [not_or, not_not] at hc
      cases i with
      | zero =>
        simp only [getElem?_cons_zero, Option.some.injEq] at hi
        subst hi
        exact ⟨by rw [hc.2, chainHash, AuditEntry.message, hc.1], by simp [prevOf, hc.1]⟩
      | succ i =>
        obtain ⟨h1, h2⟩ := ih h hi
        refine ⟨h1, ?_⟩
        cases i with
        | zero => simpa [prevOf] using h2
        | succ i => simpa [prevOf] using h2

/-- What `verify` checks at one position. -/
theorem verify_zero {L : List AuditEntry} (h : verify mac L) (h0 : L[0]? = some a) :
    a.prevHash = [] := by
  have := (verifyFrom_get h h0).2
  simpa [prevOf] using this.symm

theorem verify_succ {L : List AuditEntry} (h : verify mac L) (hi : L[i + 1]? = some b) :
    ∃ a, L[i]? = some a ∧ b.prevHash = a.hash := by
  have := (verifyFrom_get h hi).2
  simp only [prevOf, map_eq_some_iff] at this
  obtain ⟨a, ha, he⟩ := this
  exact ⟨a, ha, he.symm⟩

theorem verify_hash {L : List AuditEntry} (h : verify mac L) (ha : a ∈ L) :
    a.hash = hex (mac a.message) := by
  obtain ⟨i, hi⟩ := getElem?_of_mem ha
  exact (verifyFrom_get h hi).1

/-! ## The log -/

theorem verifyFrom_append {prev : Str} {L : List AuditEntry} (h : verifyFrom mac prev L) :
    verifyFrom mac prev (L ++ [e]) ↔
      e.prevHash = (L.getLast?.map AuditEntry.hash).getD prev ∧
        e.hash = chainHash mac e.prevHash e.seq e.event := by
  induction L generalizing prev with
  | nil =>
    simp only [nil_append, verifyFrom, getLast?_nil, map_none, getD_none]
    constructor
    · intro h
      split at h
      · cases h
      · rename_i hc
        simp only [not_or, not_not] at hc
        exact ⟨hc.1, by rw [hc.1]; exact hc.2⟩
    · rintro ⟨h1, h2⟩
      simp [h1] at h2 ⊢
      exact h2
  | cons x xs ih =>
    simp only [verifyFrom] at h
    split at h
    · cases h
    · rename_i hc
      have hx : (List.getLast? (x :: xs)).map AuditEntry.hash =
          some ((xs.getLast?.map AuditEntry.hash).getD x.hash) := by
        cases xs with
        | nil => rfl
        | cons y ys => simp [getLast?_cons]
      rw [cons_append, verifyFrom, if_neg hc, ih h, hx, getD_some]

theorem auditLog_verify (mac : List UInt8 → List UInt8) (events : List Str) :
    verify mac (auditLog mac events) ∧
      ∀ e, (auditLog mac events)[0]? = some e → e.seq = 0 := by
  refine Lib.run_invariant (I := fun L => verify mac L ∧ ∀ e, L[0]? = some e → e.seq = 0)
    (s := []) ?_ ⟨rfl, by simp⟩ events
  intro L event ⟨hv, h0⟩
  cases hl : L.getLast? with
  | none =>
    obtain rfl : L = [] := by simpa using hl
    refine ⟨?_, fun e he => ?_⟩
    · simp [append, verify, verifyFrom]
    · simp only [append, getLast?_nil, nil_append, getElem?_cons_zero,
        Option.some.injEq] at he
      rw [← he]
  | some last =>
    refine ⟨?_, fun e he => ?_⟩
    · simp only [append, hl]
      exact (verifyFrom_append hv).mpr ⟨by simp [hl], rfl⟩
    · obtain ⟨x, xs, rfl⟩ := exists_cons_of_ne_nil (l := L) (by rintro rfl; simp at hl)
      exact h0 e (by simpa [append] using he)

/-! ## One hash, one position -/

section Accepted

variable {L : List AuditEntry} (hlen : ∀ m, (mac m).length = 32) (hv : verify mac L)
  (h0 : ∀ e, L[0]? = some e → e.seq = 0)

include hlen hv in
theorem prevHash_tag (hi : L[i + 1]? = some a) : ∃ tag, a.prevHash = hex tag ∧ tag.length = 32 := by
  obtain ⟨p, hp, he⟩ := verify_succ hv hi
  exact ⟨mac p.message, by rw [he]; exact (verifyFrom_get hv hp).1, hlen _⟩

include hlen hv h0 in
theorem position_unique (hcf : CollisionFree mac L) {j : Nat} (hi : L[i]? = some a) (hj : L[j]? = some b) (h : a.hash = b.hash) :
    i = j := by
  have hmsg : ∀ {x y : AuditEntry}, x ∈ L → y ∈ L → x.hash = y.hash → x.message = y.message := by
    intro x y hx hy he
    rw [verify_hash hv hx, verify_hash hv hy] at he
    exact hcf x hx y hy (hex_inj he)
  have hne : ∀ {x y : AuditEntry} {k : Nat}, L[0]? = some x → L[k + 1]? = some y →
      x.message ≠ y.message := by
    intro x y k hx hy
    obtain ⟨tag, ht, htl⟩ := prevHash_tag hlen hv hy
    exact message_ne (by rintro rfl; simp at htl) (verify_zero hv hx) (h0 x hx) ht
  have hm := hmsg (mem_of_getElem? hi) (mem_of_getElem? hj) h
  -- descend along both predecessor links until one of the two is the first entry
  induction i generalizing j a b with
  | zero =>
    cases j with
    | zero => rfl
    | succ j => exact absurd hm (hne hi hj)
  | succ i ih =>
    cases j with
    | zero => exact absurd hm.symm (hne hj hi)
    | succ j =>
      obtain ⟨t, ht, htl⟩ := prevHash_tag hlen hv hi
      obtain ⟨t', ht', htl'⟩ := prevHash_tag hlen hv hj
      obtain ⟨hp, _, _⟩ := message_inj
        (by rw [ht, ht', (hex_bytes t).1, (hex_bytes t').1, htl, htl']) hm
      obtain ⟨x, hx, hxe⟩ := verify_succ hv hi
      obtain ⟨y, hy, hye⟩ := verify_succ hv hj
      have he : x.hash = y.hash := by rw [← hxe, ← hye, hp]
      rw [ih hx hy he (hmsg (mem_of_getElem? hx) (mem_of_getElem? hy) he)]

end Accepted

/-! ## Forged chains -/

section Forged

variable {L E : List AuditEntry} (hlen : ∀ m, (mac m).length = 32) (hv : verify mac L)
  (h0 : ∀ e, L[0]? = some e → e.seq = 0) (hcf : CollisionFree mac (L ++ E))
  (hE : verify mac E) (hocc : ∀ e ∈ E, ∃ l ∈ L, e.hash = l.hash)

include hv hcf hE hocc in
theorem forged_message (he : e ∈ E) : ∃ (j : Nat) (l : AuditEntry), L[j]? = some l ∧ e.hash = l.hash ∧ e.message = l.message := by
  obtain ⟨l, hl, heq⟩ := hocc e he
  obtain ⟨j, hj⟩ := getElem?_of_mem hl
  refine ⟨j, l, hj, heq, hcf e (by simp [he]) l (by simp [hl]) (hex_inj ?_)⟩
  rw [← verify_hash hE he, ← verify_hash hv hl, heq]

include hlen hv h0 hcf hE hocc in
/-- If the first forged entry carries sequence number 0, every forged entry is the log's entry at the
same position. -/
theorem forged_get (hz : ∀ e, E[0]? = some e → e.seq = 0) (hi : E[i]? = some e) : L[i]? = some e := by
  have heq : ∀ {x y : AuditEntry}, x.hash = y.hash →
      x.prevHash = y.prevHash ∧ x.seq = y.seq ∧ x.event = y.event → x = y := by
    rintro ⟨⟩ ⟨⟩ h ⟨h1, h2, h3⟩
    simp_all
  induction i generalizing e with
  | zero =>
    obtain ⟨j, l, hj, hh, hm⟩ := forged_message hv hcf hE hocc (mem_of_getElem? hi)
    have hp : e.prevHash = [] := verify_zero hE hi
    cases j with
    | zero => rw [hj, heq hh (message_inj (by rw [hp, verify_zero hv hj]) hm)]
    | succ j =>
      obtain ⟨tag, ht, htl⟩ := prevHash_tag hlen hv hj
      exact absurd hm (message_ne (by rintro rfl; simp at htl) hp (hz e hi) ht)
  | succ i ih =>
    obtain ⟨j, l, hj, hh, hm⟩ := forged_message hv hcf hE hocc (mem_of_getElem? hi)
    obtain ⟨p, hp, hpe⟩ := verify_succ hE hi
    obtain ⟨tag, ht, htl⟩ := prevHash_tag hlen hE hi
    cases j with
    | zero =>
      exact absurd hm.symm
        (message_ne (by rintro rfl; simp at htl) (verify_zero hv hj) (h0 l hj) ht)
    | succ j =>
      obtain ⟨tag', ht', htl'⟩ := prevHash_tag hlen hv hj
      have hinj := message_inj
        (by rw [ht, ht', (hex_bytes tag).1, (hex_bytes tag').1, htl, htl']) hm
      obtain ⟨q, hq, hqe⟩ := verify_succ hv hj
      -- the predecessor is already known to be the log's entry at `i`, so `j = i`
      have hji : i = j := position_unique hlen hv h0
        (fun x hx y hy => hcf x (by simp [hx]) y (by simp [hy])) (ih hp) hq
        (by rw [← hpe, ← hqe, hinj.1])
      rw [hji, hj, heq hh hinj]

end Forged

end Pulsate.Waf
