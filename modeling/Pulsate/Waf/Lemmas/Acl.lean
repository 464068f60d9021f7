import Pulsate.Waf.Acl

/-!
# Address ranges

A range that is not written in the mapped form contains what it covers. One that is contains nothing, for the address that is
looked for is never of that form.
-/

namespace Pulsate.Waf

open List

theorem and_mask_eq_iff {n : Nat} (width : Nat) (a b : BitVec n) : a &&& mask n width = b &&& mask n width ↔ Agree width a b := by
  have hmask (i : Nat) (hi : i < n) : (mask n width).getMsbD i = decide (i < width) := by
    simp [mask, BitVec.getMsbD_shiftLeft]
    omega
  constructor
  · intro h i hi
    by_cases hn : i < n
    · have hbit := congrArg (·.getMsbD i) h
      simpa [BitVec.getMsbD_and, hmask i hn, hi] using hbit
    · simp [BitVec.getMsbD, hn]
  · intro h
    apply BitVec.eq_of_getMsbD_eq
    intro i hi
    rw [BitVec.getMsbD_and, BitVec.getMsbD_and, hmask i hi]
    by_cases hw : i < width
    · rw [h i hw]
    · simp [hw]

theorem contains_iff_agree (c : Cidr) (ip : IpAddr) : c.contains ip ↔ AddrAgree c.width c.base ip := by
  obtain ⟨base, width⟩ := c
  cases base with
  | v4 base =>
    cases ip with
    | v4 ip => exact decide_eq_true_iff.trans (and_mask_eq_iff width base ip)
    | v6 ip => simp [Cidr.contains, AddrAgree]
  | v6 base =>
    cases ip with
    | v4 ip => simp [Cidr.contains, AddrAgree]
    | v6 ip => exact decide_eq_true_iff.trans (and_mask_eq_iff width base ip)

theorem contains_toCanonical_iff {c : Cidr} (h : c.toCanonical = c) (ip : IpAddr) :
    c.contains ip.toCanonical ↔ c.Covers ip := by
  rw [contains_iff_agree, Cidr.Covers, h]

theorem agree_mono {n width width' : Nat} {a b : BitVec n} (h : Agree width a b) (hle : width' ≤ width) : Agree width' a b :=
  fun i hi => h i (by omega)

theorem toNat_div_of_agree {a b : BitVec 128} (h : Agree 96 a b) : a.toNat / 2 ^ 32 = b.toNat / 2 ^ 32 := by
  have hshift : a >>> 32 = b >>> 32 := by
    apply BitVec.eq_of_getMsbD_eq
    intro i hi
    rw [BitVec.getMsbD_ushiftRight, BitVec.getMsbD_ushiftRight]
    by_cases hlt : i < 32
    · simp [hlt]
    · rw [h (i - 32) (by omega)]
  simpa [Nat.shiftRight_eq_div_pow] using congrArg BitVec.toNat hshift

theorem not_contains_of_mapped {c : Cidr} (h : c.toCanonical ≠ c) (ip : IpAddr) : ¬ c.contains ip.toCanonical := by
  obtain ⟨base, width⟩ := c
  cases base with
  | v4 base => exact absurd rfl h
  | v6 base =>
    rw [Cidr.toCanonical] at h
    simp only at h
    split at h
    · rename_i ipv4 hmapped
      have hwidth : 96 ≤ width := by
        by_contra hlt
        exact h (if_neg hlt)
      intro hcontains
      rw [contains_iff_agree] at hcontains
      cases ip with
      | v4 ip => exact hcontains
      | v6 ip =>
        have hhigh : base.toNat / 2 ^ 32 = 0xFFFF := by
          by_contra hne
          rw [IpAddr.toIpv4Mapped, if_neg hne] at hmapped
          cases hmapped
        by_cases hip : ip.toNat / 2 ^ 32 = 0xFFFF
        · rw [IpAddr.toCanonical, IpAddr.toIpv4Mapped, if_pos hip] at hcontains
          exact hcontains
        · rw [IpAddr.toCanonical, IpAddr.toIpv4Mapped, if_neg hip] at hcontains
          exact hip ((toNat_div_of_agree (agree_mono hcontains hwidth)).symm.trans hhigh)
    · exact absurd rfl h

theorem check_isSome_iff (acl : IpAcl) (ip : IpAddr) :
    (acl.check ip).isSome ↔
      if acl.allow = [] then ∃ c ∈ acl.deny, c.contains ip.toCanonical
      else ∀ c ∈ acl.allow, c.contains ip.toCanonical = false := by
  unfold IpAcl.check
  dsimp only
  by_cases hallow : acl.allow = []
  · rw [if_pos hallow, hallow]
    simp only [any_nil, Bool.false_eq_true, if_false, isEmpty_nil, Bool.not_true]
    by_cases hin : acl.deny.any (fun c => c.contains ip.toCanonical)
    · rw [if_pos hin]
      exact iff_of_true rfl (any_eq_true.mp hin)
    · rw [if_neg hin]
      exact iff_of_false (by decide) (fun h => hin (any_eq_true.mpr h))
  · rw [if_neg hallow]
    have hnonempty : (!acl.allow.isEmpty) := by simpa using hallow
    by_cases hin : acl.allow.any (fun c => c.contains ip.toCanonical)
    · rw [if_pos hin]
      obtain ⟨c, hc, hcontains⟩ := any_eq_true.mp hin
      refine iff_of_false (by decide) (fun h => ?_)
      rw [h c hc] at hcontains
      cases hcontains
    · rw [if_neg hin, if_pos hnonempty]
      refine iff_of_true rfl (fun c hc => Bool.eq_false_iff.mpr (fun hcontains => hin ?_))
      exact any_eq_true.mpr ⟨c, hc, hcontains⟩

theorem check_isSome_iff_rules (acl : IpAcl) (ip : IpAddr) : (acl.check ip).isSome ↔
    if acl.allow = [] then ∃ c ∈ acl.rules, c.contains ip.toCanonical
    else ¬ ∃ c ∈ acl.rules, c.contains ip.toCanonical := by
  rw [check_isSome_iff, IpAcl.rules]
  split <;> simp

theorem blocks_iff_rules (acl : IpAcl) (ip : IpAddr) :
    acl.Blocks ip ↔ if acl.allow = [] then ∃ c ∈ acl.rules, c.Covers ip else ¬ ∃ c ∈ acl.rules, c.Covers ip := by
  rw [IpAcl.Blocks, IpAcl.rules]
  split
  · rename_i h
    simp [h]
  · rename_i h
    simp [h]

end Pulsate.Waf
