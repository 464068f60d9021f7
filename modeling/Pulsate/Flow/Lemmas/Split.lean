import Pulsate.Flow.Lemmas.Text

/-!
# Lexing up to a closing brace

A brace that stands alone at the start of a line is a token of its own, or the end of an environment
reference, whatever stands before it. What follows its line is lexed as if it stood alone.
-/

namespace Pulsate.Flow

open List Option

/-- A text that is over or ends with a line break. -/
def EndsLine (z : Str) : Prop := z = [] ∨ z.getLast? = some '\n'

theorem EndsLine.suffix {z w : Str} (h : EndsLine z) (hw : w <:+ z) : EndsLine w := by
  obtain ⟨u, rfl⟩ := hw
  by_cases hnil : w = []
  · exact .inl hnil
  · rcases h with h | h
    · exact .inl (append_eq_nil_iff.mp h).2
    · right
      rwa [getLast?_append_of_ne_nil _ hnil] at h

/-- Kinds that neither open nor close anything. -/
def TokenKind.isFlat : TokenKind → Bool
  | .lBrace | .rBrace | .eof | .env _ => false
  | _ => true

/-! ## What a token reaches -/

theorem stringRest_eq_none {s : Str} (h : '"' ∉ s) : stringRest s = none := by
  fun_induction stringRest s with
  | case1 => rfl
  | case2 s => exact absurd mem_cons_self h
  | case3 => rfl
  | case4 c s hc ih =>
    rw [ih (fun hm => h (mem_cons_of_mem _ (mem_cons_of_mem _ hm)))]
    rfl
  | case5 => rfl
  | case6 c s _ _ _ ih =>
    rw [ih (fun hm => h (mem_cons_of_mem _ hm))]
    rfl

theorem stringRest_append {z t v r : Str} (ht : '"' ∉ t) (h : stringRest (z ++ t) = some (v, r)) :
    ∃ w, w <:+ z ∧ r = w ++ t := by
  induction hn : z.length using Nat.strong_induction_on generalizing z v with
  | _ n ih =>
    subst hn
    cases z with
    | nil =>
      rw [nil_append, stringRest_eq_none ht] at h
      cases h
    | cons c z =>
      by_cases hq : c = '"'
      · subst hq
        cases h
        exact ⟨z, suffix_cons _ _, rfl⟩
      · by_cases hb : c = '\\'
        · subst hb
          cases z with
          | nil =>
            -- the escaped character is already in the text without quotes
            cases t with
            | nil => cases h
            | cons d t =>
              have hnone := stringRest_eq_none (fun hm => ht (mem_cons_of_mem d hm))
              rw [cons_append, nil_append, stringRest, hnone] at h
              split at h <;> cases h
          | cons d z =>
            rw [cons_append, cons_append, stringRest] at h
            split at h
            · obtain ⟨⟨v', r'⟩, hs, he⟩ := map_eq_some_iff.mp h
              cases he
              obtain ⟨w, hw, rfl⟩ := ih z.length (by simp only [length_cons]; omega) hs rfl
              exact ⟨w, (hw.trans (suffix_cons _ _)).trans (suffix_cons _ _), rfl⟩
            · cases h
        · rw [cons_append, Lexer.stringRest_plain _ hq hb] at h
          obtain ⟨⟨v', r'⟩, hs, he⟩ := map_eq_some_iff.mp h
          cases he
          obtain ⟨w, hw, rfl⟩ := ih z.length (by simp) hs rfl
          exact ⟨w, hw.trans (suffix_cons _ _), rfl⟩

theorem atomLen_le {z t : Str} {d : Char} (hd : isAtomEnd d) : atomLen id (z ++ d :: t) ≤ z.length := by
  induction z with
  | nil => simp [atomLen, hd]
  | cons c z ih =>
    rw [cons_append, atomLen]
    split
    · exact Nat.zero_le _
    · exact Nat.succ_le_succ ih

theorem separatorRunLen_le {z t : Str} (hz : EndsLine z) {b : Bool} (hb : b → z ≠ []) :
    separatorRunLen id b (z ++ '}' :: t) ≤ z.length := by
  induction z generalizing b with
  | nil =>
    cases b with
    | true => exact absurd rfl (hb rfl)
    | false => simp [separatorRunLen, isSeparator, isHorizontal]
  | cons c z ih =>
    have hz' := hz.suffix (suffix_cons c z)
    -- a comment in the last line would not end with a break
    have hlast : z = [] → c = '\n' := by
      rintro rfl
      rcases hz with h | h
      · cases h
      · simpa using h
    rw [cons_append, separatorRunLen]
    split
    · refine Nat.succ_le_succ (ih hz' ?_)
      intro hne hnil
      simp [hlast hnil] at hne
    · split
      · exact Nat.succ_le_succ (ih hz' (by simp))
      · split
        · rename_i hg
          refine Nat.succ_le_succ (ih hz' ?_)
          rintro - hnil
          rw [hlast hnil] at hg
          cases hg
        · exact Nat.zero_le _

theorem single_isFlat {c : Char} {k : TokenKind} (h : Lexer.single c = some k) (h1 : c ≠ '{') (h2 : c ≠ '}') :
    k.isFlat := by
  unfold Lexer.single at h
  split at h <;> cases h <;> first | rfl | contradiction

theorem dropWhile_brace {u : Str} (hu : '}' ∉ u) (t : Str) : (u ++ '}' :: t).dropWhile (· ≠ '}') = '}' :: t := by
  have hall : ∀ x ∈ u, decide (x ≠ '}') := by
    intro x hx
    simp only [ne_eq, decide_not, Bool.not_eq_true', decide_eq_false_iff_not]
    rintro rfl
    exact hu hx
  rw [dropWhile_append_of_pos hall]
  simp

theorem nextKind_split {c : Char} {z y r : Str} {k : TokenKind} (hy : '"' ∉ y)
    (h : nextKind c (z ++ '}' :: '\n' :: y) = some (k, r)) :
    (∃ w, w <:+ z ∧ r = w ++ '}' :: '\n' :: y ∧ ('{' ∉ c :: z → '}' ∉ c :: z → k.isFlat)) ∨
      (∃ e, k = .env e) ∧ r = '\n' :: y ∧ '{' ∈ z := by
  unfold nextKind at h
  split at h
  · rename_i k' hsing
    cases h
    refine .inl ⟨z, suffix_refl z, rfl, fun h1 h2 => single_isFlat hsing ?_ ?_⟩
    · rintro rfl; exact h1 mem_cons_self
    · rintro rfl; exact h2 mem_cons_self
  split at h
  · rename_i harr
    cases h
    cases z with
    | nil => cases harr.2
    | cons d z => exact .inl ⟨z, suffix_cons d z, rfl, fun _ _ => rfl⟩
  split at h
  · obtain ⟨⟨v, r'⟩, hstr, he⟩ := map_eq_some_iff.mp h
    cases he
    obtain ⟨w, hw, rfl⟩ := stringRest_append (by simpa using hy) hstr
    exact .inl ⟨w, hw, rfl, fun _ _ => rfl⟩
  split at h
  · rename_i henv
    cases z with
    | nil => cases henv.2
    | cons d z =>
      have hd : d = '{' := by simpa using henv.2
      subst hd
      rw [cons_append, tail_cons] at h
      by_cases hclose : '}' ∈ z
      · obtain ⟨u, w, rfl, hu⟩ := eq_append_cons_of_mem hclose
        rw [append_assoc, cons_append, dropWhile_brace hu] at h
        cases h
        refine .inl ⟨w, ?_, rfl, fun h1 _ => absurd (by simp) h1⟩
        exact ((suffix_cons '}' w).trans (suffix_append u _)).trans (suffix_cons _ _)
      · rw [dropWhile_brace hclose] at h
        cases h
        exact .inr ⟨⟨_, rfl⟩, rfl, mem_cons_self⟩
  · cases h
    refine .inl ⟨z.drop (atomLen id (z ++ '}' :: '\n' :: y)), drop_suffix _ z, ?_, fun _ _ => rfl⟩
    rw [drop_append_of_le_length (atomLen_le rfl)]

/-! ## Texts before a brace -/

/-- How a text before a closing brace is lexed: up to the token the brace belongs to, and from its line's
end. -/
structure Split (z y : Str) (ks : List TokenKind) (before : List TokenKind) (close : TokenKind)
    (after : List TokenKind) : Prop where
  split : ks = before ++ close :: after
  rest : kinds ('\n' :: y) = some after
  closes : close = .rBrace ∨ ∃ e, close = .env e
  flat : '{' ∉ z → '}' ∉ z → close = .rBrace ∧ ∀ k ∈ before, k.isFlat

theorem Split.cons {z w y : Str} {ks before after : List TokenKind} {close k : TokenKind} (hw : w <:+ z)
    (hk : '{' ∉ z → '}' ∉ z → k.isFlat) (h : Split w y ks before close after) :
    Split z y (k :: ks) (k :: before) close after := by
  refine ⟨by rw [h.split]; rfl, h.rest, h.closes, ?_⟩
  intro h1 h2
  obtain ⟨hc, hb⟩ := h.flat (fun hm => h1 (hw.subset hm)) (fun hm => h2 (hw.subset hm))
  refine ⟨hc, ?_⟩
  intro k' hk'
  rcases mem_cons.mp hk' with rfl | hk'
  · exact hk h1 h2
  · exact hb k' hk'

theorem Split.of_suffix {z w y : Str} {ks before after : List TokenKind} {close : TokenKind} (hw : w <:+ z)
    (h : Split w y ks before close after) : Split z y ks before close after :=
  ⟨h.split, h.rest, h.closes, fun h1 h2 => h.flat (fun hm => h1 (hw.subset hm)) (fun hm => h2 (hw.subset hm))⟩

theorem kinds_split {z y : Str} {ks : List TokenKind} (hz : EndsLine z) (hy : '"' ∉ y)
    (h : kinds (z ++ '}' :: '\n' :: y) = some ks) : ∃ before close after, Split z y ks before close after := by
  induction hn : z.length using Nat.strong_induction_on generalizing z ks with
  | _ n ih =>
    subst hn
    have hrec : ∀ {w : Str} {ks' : List TokenKind}, w <:+ z → w.length < z.length →
        kinds (w ++ '}' :: '\n' :: y) = some ks' → ∃ before close after, Split w y ks' before close after :=
      fun hw hlt hk => ih _ hlt (hz.suffix hw) hk rfl
    cases z with
    | nil =>
      rw [nil_append, kinds_single (k := .rBrace) rfl] at h
      obtain ⟨after, ha, rfl⟩ := map_eq_some_iff.mp h
      exact ⟨[], .rBrace, after, rfl, ha, .inl rfl, fun _ _ => ⟨rfl, by simp⟩⟩
    | cons c z =>
      have hsuf : z <:+ c :: z := suffix_cons c z
      have hdrop : ∀ m, z.drop m <:+ c :: z := fun m => (drop_suffix m z).trans hsuf
      have hdlen : ∀ m, (z.drop m).length < (c :: z).length := fun m => by
        rw [length_drop, length_cons]
        omega
      rw [cons_append] at h
      by_cases hh : isHorizontal c
      · rw [kinds_horizontal hh] at h
        obtain ⟨b, cl, a, hs⟩ := hrec hsuf (by simp) h
        exact ⟨b, cl, a, hs.of_suffix hsuf⟩
      by_cases hg : c = '#'
      · subst hg
        have hmem : '\n' ∈ z := by
          rcases hz with hz | hz
          · cases hz
          · rcases mem_cons.mp (mem_of_getLast? hz) with hc | hc
            · cases hc
            · exact hc
        obtain ⟨u, w, rfl, hu⟩ := eq_append_cons_of_mem hmem
        rw [append_assoc, cons_append, kinds_comment hu, ← cons_append] at h
        have hw : '\n' :: w <:+ '#' :: (u ++ '\n' :: w) := (suffix_append u _).trans hsuf
        obtain ⟨b, cl, a, hs⟩ := hrec hw (by simp only [length_cons, length_append]; omega) h
        exact ⟨b, cl, a, hs.of_suffix hw⟩
      by_cases hsep : isSeparator c
      · have hle := separatorRunLen_le (t := '\n' :: y) (hz.suffix hsuf) (b := false) (by simp)
        rw [kinds_separator hsep, drop_append_of_le_length hle] at h
        obtain ⟨ks', hk, rfl⟩ := map_eq_some_iff.mp h
        obtain ⟨b, cl, a, hs⟩ := hrec (hdrop _) (hdlen _) hk
        exact ⟨.sep :: b, cl, a, hs.cons (hdrop _) (fun _ _ => rfl)⟩
      rw [kinds_token (by simpa using hh) hg (by simpa using hsep)] at h
      obtain ⟨⟨k, r⟩, hnext, h⟩ := bind_eq_some_iff.mp h
      obtain ⟨ks', hk, rfl⟩ := map_eq_some_iff.mp h
      rcases nextKind_split hy hnext with ⟨w, hw, rfl, hflat⟩ | ⟨henv, rfl, hbrace⟩
      · have hlen := hw.length_le
        obtain ⟨b, cl, a, hs⟩ := hrec (hw.trans hsuf) (by rw [length_cons]; omega) hk
        exact ⟨k :: b, cl, a, hs.cons (hw.trans hsuf) hflat⟩
      · exact ⟨[], k, ks', rfl, hk, .inr henv, fun h1 _ => absurd (mem_cons_of_mem _ hbrace) h1⟩

end Pulsate.Flow
