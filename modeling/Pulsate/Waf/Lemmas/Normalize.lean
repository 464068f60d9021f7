import Pulsate.Waf.Engine

/-!
# What is left of a target

The bytes of a target are gaps and plain bytes. A run of gaps comes out as one blank and a plain byte as its character.
-/

namespace Pulsate.Waf

open Relation List

variable {s s' : List UInt8} {text : Str}

/-- What comes out of bytes, in a run of gaps or outside of one. -/
def plainText (inWs : Bool) (s : List UInt8) : Str := collapseFrom inWs (stripBlockCommentBytes false s)

theorem normalize_eq (target : Str) : normalize target = plainText false (decoded target).bytes := rfl

@[simp] theorem plainText_nil (inWs : Bool) : plainText inWs [] = [] := rfl

/-! ## Gaps and plain bytes -/

theorem stripBlockCommentBytes_true (s : List UInt8) :
    stripBlockCommentBytes true s = stripBlockCommentBytes false (afterComment s) := by
  fun_induction afterComment s with
  | case1 => rfl
  | case2 rest => rw [stripBlockCommentBytes]
  | case3 b rest hnot ih => rw [stripBlockCommentBytes.eq_5 b rest hnot, ih]

theorem plain_or_gap (b : UInt8) (s : List UInt8) : Plain b s ∨ ∃ s', Gap (b :: s) s' := by
  by_cases hblank : isBlank b
  · exact .inr ⟨s, .blank hblank⟩
  · by_cases hcomment : b = 0x2F ∧ s.head? = some 0x2A
    · obtain ⟨rfl, hhead⟩ := hcomment
      obtain ⟨rest, rfl⟩ := head?_eq_some_iff.mp hhead
      exact .inr ⟨_, .comment⟩
    · exact .inl ⟨by simpa using hblank, fun hb hs => hcomment ⟨hb, hs⟩⟩

theorem length_afterComment_le (s : List UInt8) : (afterComment s).length ≤ s.length := by
  fun_induction afterComment s with
  | case1 => exact Nat.le_refl _
  | case2 rest =>
    simp only [length_cons]
    omega
  | case3 b rest hnot ih =>
    simp only [length_cons]
    omega

theorem Gap.length_lt (h : Gap s s') : s'.length < s.length := by
  cases h with
  | blank h => exact Nat.lt_succ_self _
  | comment =>
    rename_i rest
    have := length_afterComment_le rest
    simp only [length_cons]
    omega

theorem stripBlockCommentBytes_cons {b : UInt8} (h : b = 0x2F → s.head? ≠ some 0x2A) :
    stripBlockCommentBytes false (b :: s) = Char.ofUInt8 b :: stripBlockCommentBytes false s := by
  apply stripBlockCommentBytes.eq_4
  rintro rest hb rfl
  exact h hb rfl

/-- A gap is a blank where no run of gaps goes before it. -/
theorem plainText_gap (h : Gap s s') : plainText false s = ' ' :: plainText true s' ∧ plainText true s = plainText true s' := by
  unfold plainText
  cases h with
  | blank hblank =>
    rename_i b
    have hcons : stripBlockCommentBytes false (b :: s') = Char.ofUInt8 b :: stripBlockCommentBytes false s' := by
      apply stripBlockCommentBytes_cons
      rintro rfl
      cases hblank
    rw [isBlank] at hblank
    rw [hcons]
    constructor
    · rw [collapseFrom, if_pos hblank]
      rfl
    · rw [collapseFrom, if_pos hblank]
      rfl
  | comment =>
    rw [stripBlockCommentBytes, stripBlockCommentBytes_true]
    exact ⟨rfl, rfl⟩

theorem plainText_plain {b : UInt8} (h : Plain b s) (inWs : Bool) :
    plainText inWs (b :: s) = Char.ofUInt8 b :: plainText false s := by
  have hblank := h.notBlank
  rw [isBlank] at hblank
  rw [plainText, stripBlockCommentBytes_cons h.notComment, collapseFrom, if_neg (by simp [hblank])]
  rfl

theorem plainText_gaps (h : TransGen Gap s s') :
    plainText false s = ' ' :: plainText true s' ∧ plainText true s = plainText true s' := by
  induction h with
  | single h => exact plainText_gap h
  | tail _ h ih =>
    rw [(plainText_gap h).2] at ih
    exact ih

theorem exists_end (s : List UInt8) : ∃ s', ReflTransGen Gap s s' ∧ plainText true s = plainText false s' := by
  cases s with
  | nil => exact ⟨[], .refl, rfl⟩
  | cons b s =>
    rcases plain_or_gap b s with hplain | ⟨s', hgap⟩
    · exact ⟨b :: s, .refl, by rw [plainText_plain hplain, plainText_plain hplain]⟩
    · obtain ⟨s'', hrun, heq⟩ := exists_end s'
      exact ⟨s'', .head hgap hrun, by rw [(plainText_gap hgap).2, heq]⟩
termination_by s.length
decreasing_by exact hgap.length_lt

/-! ## Reading -/

/-- No blank of the text follows another. -/
def Spaced (text : Str) : Prop := text.IsChain (fun c d => ¬ (c = ' ' ∧ d = ' '))

instance decidableSpaced (text : Str) : Decidable (Spaced text) := inferInstanceAs (Decidable (List.IsChain _ _))

theorem plainText_eq_of_reads {c : Char} (hc : c ≠ ' ') (h : Reads (c :: text) s) : plainText true s = plainText false s := by
  cases h with
  | letter hplain rest => rw [plainText_plain hplain, plainText_plain hplain]
  | blank hgaps rest => exact absurd rfl hc

theorem prefix_of_reads (hspaced : Spaced text) (h : Reads text s) : text <+: plainText false s := by
  induction h with
  | nil => exact nil_prefix
  | letter hplain rest ih =>
    rw [plainText_plain hplain]
    exact prefix_cons_inj _ |>.mpr (ih hspaced.of_cons)
  | blank hgaps rest ih =>
    rename_i text
    rw [(plainText_gaps hgaps).1, prefix_cons_inj]
    cases text with
    | nil => exact nil_prefix
    | cons c text =>
      have hc : c ≠ ' ' := by
        rintro rfl
        exact (isChain_cons_cons.mp hspaced).1 ⟨rfl, rfl⟩
      rw [plainText_eq_of_reads hc rest]
      exact ih hspaced.of_cons

theorem reads_of_prefix (h : text <+: plainText false s) : Reads text s := by
  induction text generalizing s with
  | nil => exact .nil
  | cons c text ih =>
    cases s with
    | nil => simp at h
    | cons b s =>
      rcases plain_or_gap b s with hplain | ⟨s', hgap⟩
      · rw [plainText_plain hplain] at h
        obtain ⟨rfl, hrest⟩ := cons_prefix_cons.mp h
        exact .letter hplain (ih hrest)
      · rw [(plainText_gap hgap).1] at h
        obtain ⟨rfl, hrest⟩ := cons_prefix_cons.mp h
        obtain ⟨s'', hrun, heq⟩ := exists_end s'
        rw [heq] at hrest
        exact .blank (.head' hgap hrun) (ih hrest)

/-! ## Places -/

theorem suffix_of_outside (h : Outside s s') : ∃ inWs, plainText inWs s' <:+ plainText false s := by
  induction h with
  | refl => exact ⟨false, suffix_rfl⟩
  | tail _ hstep ih =>
    obtain ⟨inWs, hsuffix⟩ := ih
    rcases hstep with hgap | ⟨b, hplain, rfl⟩
    · refine ⟨true, List.IsSuffix.trans ?_ hsuffix⟩
      cases inWs with
      | false =>
        rw [(plainText_gap hgap).1]
        exact suffix_cons _ _
      | true => rw [(plainText_gap hgap).2]
    · refine ⟨false, List.IsSuffix.trans ?_ hsuffix⟩
      rw [plainText_plain hplain]
      exact suffix_cons _ _

theorem spells_of_infix {c : Char} (hc : c ≠ ' ') (inWs : Bool) (s : List UInt8) (h : c :: text <:+: plainText inWs s) :
    Spells s (c :: text) := by
  match s, h with
  | [], h => simp at h
  | b :: s, h =>
    rcases plain_or_gap b s with hplain | ⟨s', hgap⟩
    · rw [plainText_plain hplain] at h
      rcases infix_cons_iff.mp h with hhere | hlater
      · rw [← plainText_plain hplain false] at hhere
        exact ⟨b :: s, .refl, reads_of_prefix hhere⟩
      · obtain ⟨s'', hout, hreads⟩ := spells_of_infix hc false s hlater
        exact ⟨s'', .head (.inr ⟨b, hplain, rfl⟩) hout, hreads⟩
    · have hlater : c :: text <:+: plainText true s' := by
        cases inWs with
        | true => rwa [(plainText_gap hgap).2] at h
        | false =>
          rw [(plainText_gap hgap).1] at h
          rcases infix_cons_iff.mp h with hhere | hlater
          · exact absurd (cons_prefix_cons.mp hhere).1 hc
          · exact hlater
      obtain ⟨s'', hout, hreads⟩ := spells_of_infix hc true s' hlater
      exact ⟨s'', .head (.inl hgap) hout, hreads⟩
termination_by s.length
decreasing_by
  · exact Nat.lt_succ_self _
  · exact hgap.length_lt

theorem infix_iff_spells {c : Char} (hc : c ≠ ' ') (hspaced : Spaced (c :: text)) (s : List UInt8) :
    c :: text <:+: plainText false s ↔ Spells s (c :: text) := by
  constructor
  · exact spells_of_infix hc false s
  · rintro ⟨s', hout, hreads⟩
    obtain ⟨inWs, hsuffix⟩ := suffix_of_outside hout
    have hprefix : c :: text <+: plainText inWs s' := by
      cases inWs with
      | false => exact prefix_of_reads hspaced hreads
      | true =>
        rw [plainText_eq_of_reads hc hreads]
        exact prefix_of_reads hspaced hreads
    exact hprefix.isInfix.trans hsuffix.isInfix

end Pulsate.Waf
