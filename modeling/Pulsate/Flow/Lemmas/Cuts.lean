import Mathlib.Data.List.Chain
import Pulsate.Flow.Lemmas.Text
import Pulsate.Lib.Except

/-!
# The text cut into tokens

A text that lexes is a sequence of gaps and tokens. Every fact about the token stream is proved along this sequence.
-/

namespace Pulsate.Flow

open List Lib Option Pulsate.Str

variable {c : Char} {u r text : Str} {k : TokenKind} {i : Nat}

/-! ## Tokens alone -/

theorem separatorRunLen_take (inComment : Bool) (s : Str) :
    separatorRunLen id inComment (s.take (separatorRunLen id inComment s)) = separatorRunLen id inComment s := by
  induction s generalizing inComment with
  | nil => rfl
  | cons c s ih =>
    cases inComment with
    | true => simp [separatorRunLen, ih]
    | false =>
      by_cases h1 : (isSeparator c || isHorizontal c)
      · simp [separatorRunLen, h1, ih]
      · by_cases h2 : c = '#'
        · subst h2
          simp [separatorRunLen, isSeparator, isHorizontal, ih]
        · simp [separatorRunLen, h1, h2]

/-- What comes behind a run of separators and blanks is neither. -/
theorem separatorRunLen_next {s t : Str} (inComment : Bool) (h : s.drop (separatorRunLen id inComment s) = c :: t) :
    isSeparator c = false ∧ isHorizontal c = false ∧ c ≠ '#' := by
  induction s generalizing inComment with
  | nil => cases inComment <;> cases h
  | cons d s ih =>
    simp only [separatorRunLen, id_eq] at h
    split at h
    · exact ih _ h
    split at h
    · exact ih _ h
    split at h
    · exact ih _ h
    · rename_i h1 h2
      simp only [Bool.or_eq_true, not_or, Bool.not_eq_true] at h1
      cases h
      exact ⟨h1.1, h1.2, h2⟩

theorem atomLen_le_length {α : Type} (char : α → Char) (items : List α) : atomLen char items ≤ items.length := by
  induction items with
  | nil => simp [atomLen]
  | cons b rest ih =>
    simp only [atomLen, length_cons]
    split <;> omega

theorem atomLen_take (s : Str) : atomLen id (s.take (atomLen id s)) = atomLen id s := by
  induction s with
  | nil => rfl
  | cons c s ih =>
    by_cases h : isAtomEnd c = false ∧ ¬ (c = '~' ∧ s.head? = some '>')
    · have h' : ¬ (c = '~' ∧ (s.take (atomLen id s)).head? = some '>') := by
        rintro ⟨hc, hgt⟩
        refine h.2 ⟨hc, ?_⟩
        cases s with
        | nil => simp at hgt
        | cons d s =>
          rw [head?_take] at hgt
          split at hgt
          · cases hgt
          · exact hgt
      rw [Lexer.atomLen_cons h.1 h.2, take_succ_cons, Lexer.atomLen_cons h.1 h', ih]
    · have h0 : atomLen id (c :: s) = 0 := by
        rw [not_and_or, Bool.not_eq_false, not_not] at h
        rcases h with h | h
        · simp [atomLen, h]
        · simp [atomLen, h]
      rw [h0]
      rfl

theorem stringRest_alone {v : Str} (h : stringRest (u ++ r) = some (v, r)) : stringRest u = some (v, []) := by
  induction hn : u.length using Nat.strong_induction_on generalizing u v with
  | _ n ih =>
    cases u with
    | nil =>
      obtain ⟨body, hne, hr⟩ := stringRest_suffix h
      exact absurd (self_eq_append_left.mp hr) hne
    | cons c u =>
      by_cases hq : c = '"'
      · subst hq
        simp only [cons_append, stringRest, Option.some.injEq, Prod.mk.injEq] at h
        obtain ⟨rfl, hu⟩ := h
        obtain rfl : u = [] := append_left_eq_self.mp hu
        rfl
      by_cases hs : c = '\\'
      · subst hs
        cases u with
        | nil =>
          cases r with
          | nil => cases h
          | cons d r =>
            exfalso
            simp only [cons_append, nil_append, stringRest] at h
            split at h
            · obtain ⟨⟨v', r'⟩, hv, he⟩ := map_eq_some_iff.mp h
              cases he
              obtain ⟨body, hne, hr⟩ := stringRest_suffix hv
              have := congrArg List.length hr
              simp only [length_append, length_cons] at this
              omega
            · cases h
        | cons d u =>
          simp only [cons_append, stringRest] at h ⊢
          split at h
          · rename_i hd
            obtain ⟨⟨v', r'⟩, hv, he⟩ := map_eq_some_iff.mp h
            cases he
            rw [if_pos hd, ih u.length (by simp only [length_cons] at hn; omega) hv rfl]
            rfl
          · cases h
      · rw [cons_append, Lexer.stringRest_plain _ hq hs] at h
        obtain ⟨⟨v', r'⟩, hv, he⟩ := map_eq_some_iff.mp h
        cases he
        rw [Lexer.stringRest_plain _ hq hs, ih u.length (by simp only [length_cons] at hn; omega) hv rfl]
        rfl

theorem nextKind_alone (h : nextKind c (u ++ r) = some (k, r)) : nextKind c u = some (k, []) := by
  rcases nextKind_cases h with ⟨hk, hr⟩ | ⟨rfl, hs, rfl⟩ | ⟨rfl, v, hv, rfl⟩ | ⟨rfl, v, hs, hv, rfl⟩ |
    ⟨hk, h1, h2, h3, hr, rfl⟩
  · obtain rfl : u = [] := self_eq_append_left.mp hr
    rw [nextKind, hk]
  · obtain rfl : u = ['>'] := append_cancel_right (hs : u ++ r = ['>'] ++ r)
    rfl
  · have hnext : nextKind '"' u = (stringRest u).map (fun r => (.str r.1, r.2)) := rfl
    rw [hnext, stringRest_alone hv]
    rfl
  · obtain rfl : u = '{' :: (v ++ ['}']) := append_cancel_right (by simpa using hs)
    have hall : ∀ c ∈ v, (!decide (c = '}')) := by
      simpa using fun c hc => ne_of_mem_of_not_mem hc hv
    simp [nextKind, Lexer.single, takeWhile_append_of_pos hall, dropWhile_append_of_pos hall]
  · have hu : u = (u ++ r).take (atomLen id (u ++ r)) := by
      have hsplit := take_append_drop (atomLen id (u ++ r)) (u ++ r)
      rw [← hr] at hsplit
      exact (append_cancel_right hsplit).symm
    have hhead {a : Char} (ha : u.head? = some a) : (u ++ r).head? = some a := by
      cases u with
      | nil => cases ha
      | cons d u => exact ha
    have hlen : atomLen id u = u.length := by
      have := atomLen_take (u ++ r)
      rw [← hu] at this
      rw [this]
      conv_rhs => rw [hu]
      rw [length_take, Nat.min_eq_left (atomLen_le_length _ _)]
    rw [← hu]
    rw [nextKind, hk]
    simp only [if_neg (fun hc : c = '~' ∧ u.head? = some '>' => h1 ⟨hc.1, hhead hc.2⟩), if_neg h2,
      if_neg (fun hc : c = '$' ∧ u.head? = some '{' => h3 ⟨hc.1, hhead hc.2⟩), hlen, take_length, drop_length]

/-! ## Cuts -/

/-- Blanks, and perhaps a comment. -/
def IsGap (gap : Str) : Prop :=
  ∃ blanks comment, gap = blanks ++ comment ∧ (∀ c ∈ blanks, isHorizontal c) ∧
    (comment = [] ∨ ∃ t, comment = '#' :: t ∧ '\n' ∉ t)

theorem skipHorizontal_gap (s : Str) : IsGap (s.take (skipHorizontalLen id s)) := by
  induction s with
  | nil => exact ⟨[], [], rfl, by simp, .inl rfl⟩
  | cons c s ih =>
    simp only [skipHorizontalLen, id_eq]
    split
    · rename_i hc
      obtain ⟨blanks, comment, hgap, hblanks, hcomment⟩ := ih
      refine ⟨c :: blanks, comment, ?_, forall_mem_cons.mpr ⟨hc, hblanks⟩, hcomment⟩
      rw [take_succ_cons, hgap, cons_append]
    split
    · rename_i hc
      subst hc
      refine ⟨[], _, rfl, by simp, .inr ⟨s.takeWhile (· ≠ '\n'), ?_, notMem_takeWhile_ne _ _⟩⟩
      have htake := prefix_iff_eq_take.mp (List.takeWhile_prefix (fun c => decide (c ≠ '\n')) (l := '#' :: s))
      calc ('#' :: s).take (commentLen id ('#' :: s)) = ('#' :: s).takeWhile (· ≠ '\n') := htake.symm
        _ = '#' :: s.takeWhile (· ≠ '\n') := by simp
    · exact ⟨[], [], rfl, by simp, .inl rfl⟩

/-- The tokens of `s` behind `pre`, with the gaps before them. -/
inductive Cut : Str → Str → List Token → Prop
  | eof {pre gap : Str} : IsGap gap → Cut pre gap [⟨.eof, spanAt (pre ++ gap) []⟩]
  | token {pre gap body rest : Str} {k : TokenKind} {tokens : List Token} :
      IsGap gap → body ≠ [] → k ≠ .eof → kinds body = some [k, .eof] →
      (k = .sep → ∀ t ∈ tokens.head?, t.kind ≠ .sep) → Cut (pre ++ gap ++ body) rest tokens →
      Cut pre (gap ++ body ++ rest) (⟨k, spanAt (pre ++ gap) body⟩ :: tokens)

theorem nextKind_tail {s : Str} (h : nextKind c s = some (k, r)) : ∃ u, s = u ++ r := by
  obtain ⟨body, hne, hbody⟩ := nextKind_suffix h
  cases body with
  | nil => exact absurd rfl hne
  | cons d u =>
    cases hbody
    exact ⟨u, rfl⟩

theorem kinds_nil : kinds [] = some [.eof] := by
  rw [kinds_eq]
  rfl

theorem nextKind_ne_sep {s : Str} (h : nextKind c s = some (k, r)) : k ≠ .sep := by
  rcases nextKind_cases h with ⟨hk, -⟩ | ⟨-, -, rfl⟩ | ⟨-, v, -, rfl⟩ | ⟨-, v, -, -, rfl⟩ | ⟨-, -, -, -, -, rfl⟩
  · unfold Lexer.single at hk
    split at hk <;> cases hk <;> simp
  all_goals simp

theorem scan_head_ne_sep {pre s : Str} {tokens : List Token} (h : scan pre s = .ok tokens)
    (hs : ∀ c t, s = c :: t → isSeparator c = false ∧ isHorizontal c = false ∧ c ≠ '#') :
    ∀ t ∈ tokens.head?, t.kind ≠ .sep := by
  rw [scan_eq] at h
  cases s with
  | nil =>
    cases h
    simp
  | cons c t =>
    obtain ⟨h1, h2, h3⟩ := hs c t rfl
    have hlen : skipHorizontalLen id (c :: t) = 0 := by simp [skipHorizontalLen, h2, h3]
    rw [hlen] at h
    simp only [drop_zero, h1, Bool.false_eq_true, if_false] at h
    cases hk : nextKind c t with
    | none =>
      rw [hk] at h
      cases h
    | some kr =>
      rw [hk] at h
      obtain ⟨tokens', -, rfl⟩ := map_eq_ok.mp h
      simpa using nextKind_ne_sep hk

theorem kinds_run (hc : isSeparator c) (t : Str) :
    kinds (c :: t.take (separatorRunLen id false t)) = some [.sep, .eof] := by
  rw [kinds_separator hc, separatorRunLen_take, drop_of_length_le (by rw [length_take]; omega), kinds_nil]
  rfl

theorem kinds_alone (hh : isHorizontal c = false) (hg : c ≠ '#') (hs : isSeparator c = false)
    (h : nextKind c (u ++ r) = some (k, r)) : kinds (c :: u) = some [k, .eof] := by
  rw [kinds_token hh hg hs, nextKind_alone h, bind_some, kinds_nil]
  rfl

theorem scan_cut {pre s : Str} {tokens : List Token} (h : scan pre s = .ok tokens) : Cut pre s tokens := by
  induction hn : s.length using Nat.strong_induction_on generalizing pre s tokens with
  | _ n ih =>
    have hgap := skipHorizontal_gap s
    have hsplit := take_append_drop (skipHorizontalLen id s) s
    rw [scan_eq] at h
    cases hs : s.drop (skipHorizontalLen id s) with
    | nil =>
      rw [hs] at h
      rw [hs, append_nil] at hsplit
      rw [hsplit] at hgap
      cases h
      exact .eof hgap
    | cons c t =>
      have hlen := congrArg List.length hs
      simp only [length_drop, length_cons] at hlen
      rw [hs] at h hsplit
      simp only at h
      obtain ⟨hh, hg⟩ := Lexer.skipHorizontal_next hs
      split at h
      · rename_i hc
        obtain ⟨tokens', htokens, rfl⟩ := map_eq_ok.mp h
        have hne := scan_head_ne_sep htokens (fun _ _ => separatorRunLen_next false)
        have hcut := ih _ (by rw [length_drop]; omega) htokens rfl
        have hcut' := Cut.token hgap (by simp) (by simp) (kinds_run hc t) (fun _ => hne) hcut
        rwa [append_assoc, cons_append, take_append_drop, hsplit] at hcut'
      · rename_i hc
        cases hk : nextKind c t with
        | none =>
          rw [hk] at h
          cases h
        | some kr =>
          obtain ⟨k, r⟩ := kr
          rw [hk] at h
          obtain ⟨tokens', htokens, rfl⟩ := map_eq_ok.mp h
          obtain ⟨u, rfl⟩ := nextKind_tail hk
          have htake : (c :: (u ++ r)).take ((c :: (u ++ r)).length - r.length) = c :: u := by
            rw [← cons_append, length_append, Nat.add_sub_cancel, take_left]
          rw [htake] at htokens ⊢
          have hcut := ih r.length (by simp only [length_append] at hlen; omega) htokens rfl
          have hinner := nextKind_inner hh hg (by simpa using hc) hk
          have hcut' := Cut.token hgap (by simp) hinner.1 (kinds_alone hh hg (by simpa using hc) hk)
            (fun hsep => absurd hsep (nextKind_ne_sep hk)) hcut
          rwa [append_assoc, cons_append, hsplit] at hcut'

/-! ## What a cut tells of its tokens -/

theorem bytes_pos {s : Str} (h : s ≠ []) : 0 < (Str.bytes s).length :=
  Nat.lt_of_lt_of_le (length_pos_iff.mpr h) (Str.length_le_bytes s)

theorem count_newline (s : Str) : (Str.bytes s).count 10 = s.count '\n' := by
  induction s with
  | nil => rfl
  | cons c s ih =>
    rw [bytes_cons, count_append, ih, count_cons, Nat.add_comm]
    congr 1
    by_cases hc : c = '\n'
    · subst hc
      decide
    · rw [count_eq_zero_of_not_mem]
      · simp [hc]
      · exact fun h10 => ofUInt8_ne (by decide) hc 10 h10 (by decide)

theorem bytes_blanks {s : Str} (h : ∀ c ∈ s, isHorizontal c) : ∀ b ∈ Str.bytes s, b ∈ [32, 9, 13] := by
  induction s with
  | nil => simp
  | cons c s ih =>
    rw [forall_mem_cons] at h
    intro b hb
    rw [bytes_cons, mem_append] at hb
    rcases hb with hb | hb
    · have hall : (String.utf8EncodeChar c).all [32, 9, 13].contains := by
        have hc := h.1
        simp only [isHorizontal, Bool.or_eq_true, beq_iff_eq] at hc
        rcases hc with (rfl | rfl) | rfl <;> decide
      exact contains_iff_mem.mp (all_eq_true.mp hall b hb)
    · exact ih h.2 b hb

theorem bytes_comment {t : Str} (h : '\n' ∉ t) : (10 : UInt8) ∉ Str.bytes t := by
  rw [← count_eq_zero, count_newline, count_eq_zero]
  exact h

theorem bytes_inside {pre : Str} (rest : Str) (h1 : (Str.bytes pre).length ≤ i) (h2 : i < (Str.bytes (pre ++ u)).length) :
    ∃ b ∈ Str.bytes u, (Str.bytes u)[i - (Str.bytes pre).length]? = some b ∧ (Str.bytes (pre ++ u ++ rest))[i]? = some b := by
  have hi : i - (Str.bytes pre).length < (Str.bytes u).length := by
    rw [bytes_append, length_append] at h2
    omega
  refine ⟨_, getElem_mem hi, getElem?_eq_getElem hi, ?_⟩
  rw [bytes_append, getElem?_append_left h2, bytes_append, getElem?_append_right h1,
    getElem?_eq_getElem hi]

theorem IsGap.bytes {pre gap : Str} (h : IsGap gap) (rest : Str) (h1 : (Str.bytes pre).length ≤ i)
    (h2 : i < (Str.bytes (pre ++ gap)).length) :
    (∃ b ∈ [32, 9, 13], (Str.bytes (pre ++ gap ++ rest))[i]? = some b) ∨
      ∃ j ≤ i, (Str.bytes pre).length ≤ j ∧ (Str.bytes (pre ++ gap ++ rest))[j]? = some 35 ∧
        ∀ k, j ≤ k → k ≤ i → (Str.bytes (pre ++ gap ++ rest))[k]? ≠ some 10 := by
  obtain ⟨blanks, comment, rfl, hblanks, hcomment⟩ := h
  by_cases hi : i < (Str.bytes (pre ++ blanks)).length
  · obtain ⟨b, hb, -, hget⟩ := bytes_inside (comment ++ rest) h1 hi
    exact .inl ⟨b, bytes_blanks hblanks b hb, by simpa using hget⟩
  · rw [← append_assoc] at h2
    rcases hcomment with rfl | ⟨t, rfl, ht⟩
    · rw [append_nil] at h2
      exact absurd h2 hi
    · -- the comment starts where the blanks end
      have hle : (Str.bytes (pre ++ blanks)).length ≤ i := Nat.le_of_not_lt hi
      have hget (k : Nat) (hk1 : (Str.bytes (pre ++ blanks)).length ≤ k) (hk2 : k ≤ i) :=
        bytes_inside rest hk1 (Nat.lt_of_le_of_lt hk2 h2)
      refine .inr ⟨(Str.bytes (pre ++ blanks)).length, hle, ?_, ?_, ?_⟩
      · rw [bytes_append, length_append]
        omega
      · obtain ⟨b, -, hb, hget⟩ := hget _ (Nat.le_refl _) hle
        rw [Nat.sub_self] at hb
        cases hb
        simpa using hget
      · intro k hk1 hk2 h10
        obtain ⟨b, hb, -, hget⟩ := hget k hk1 hk2
        rw [← append_assoc, hget, some_inj] at h10
        subst h10
        have hno : '\n' ∉ '#' :: t := by simp [ht]
        exact bytes_comment hno hb

namespace Cut

variable {pre s : Str} {tokens : List Token}

theorem parts (h : Cut pre s tokens) : ∀ t ∈ tokens, ∃ u body r, s = u ++ (body ++ r) ∧ t.span = spanAt (pre ++ u) body ∧
    (t.kind ≠ .eof → kinds body = some [t.kind, .eof]) := by
  induction h with
  | @eof pre gap _ =>
    intro t ht
    obtain rfl := mem_singleton.mp ht
    exact ⟨gap, [], [], by simp, rfl, fun hk => absurd rfl hk⟩
  | @token pre gap body rest k tokens _ _ _ hk _ _ ih =>
    intro t ht
    rcases mem_cons.mp ht with rfl | ht
    · exact ⟨gap, body, rest, by simp, rfl, fun _ => hk⟩
    · obtain ⟨u, v, r, rfl, hspan, hkind⟩ := ih t ht
      exact ⟨gap ++ body ++ u, v, r, by simp, by simpa using hspan, hkind⟩

theorem offset_ge (h : Cut pre s tokens) : ∀ t ∈ tokens, (Str.bytes pre).length ≤ t.span.offset := by
  intro t ht
  obtain ⟨u, body, r, -, hspan, -⟩ := h.parts t ht
  simp [hspan, spanAt, bytes_append]

theorem inOrder (h : Cut pre s tokens) :
    tokens.Pairwise (fun t t' => t.span.offset < t'.span.offset ∧ t.span.stop ≤ t'.span.offset) := by
  induction h with
  | eof => simp
  | @token pre gap body rest k tokens _ hne _ _ _ hcut ih =>
    refine pairwise_cons.mpr ⟨?_, ih⟩
    intro t ht
    have hge := hcut.offset_ge t ht
    have hpos := bytes_pos hne
    rw [bytes_append, length_append] at hge
    simp only [spanAt, Span.stop]
    omega

theorem eof_last (h : Cut pre s tokens) : ∃ init, tokens = init ++ [⟨.eof, spanAt (pre ++ s) []⟩] ∧
    ∀ t ∈ init, t.kind ≠ .eof := by
  induction h with
  | eof => exact ⟨[], rfl, by simp⟩
  | @token pre gap body rest k tokens _ _ hk _ _ _ ih =>
    obtain ⟨init, rfl, hinit⟩ := ih
    refine ⟨⟨k, spanAt (pre ++ gap) body⟩ :: init, by simp, ?_⟩
    exact forall_mem_cons.mpr ⟨hk, hinit⟩

theorem apart (h : Cut pre s tokens) : tokens.IsChain (fun t t' => ¬ (t.kind = .sep ∧ t'.kind = .sep)) := by
  induction h with
  | eof => exact .singleton _
  | @token pre gap body rest k tokens _ _ _ _ hsep _ ih =>
    refine isChain_cons.mpr ⟨?_, ih⟩
    rintro t ht ⟨hk, hk'⟩
    exact hsep hk t ht hk'

theorem isCovered_cons {t : Token} : IsCovered (t :: tokens) i ↔ (t.span.offset ≤ i ∧ i < t.span.stop) ∨ IsCovered tokens i := by
  simp [IsCovered]

theorem not_isCovered (h : Cut pre s tokens) (hi : i < (Str.bytes pre).length) : ¬ IsCovered tokens i := by
  rintro ⟨t, ht, hle, -⟩
  have := h.offset_ge t ht
  omega

theorem between (h : Cut pre s tokens) (h1 : (Str.bytes pre).length ≤ i) (h2 : i < (Str.bytes (pre ++ s)).length)
    (hi : ¬ IsCovered tokens i) :
    (∃ b ∈ [32, 9, 13], (Str.bytes (pre ++ s))[i]? = some b) ∨
      ∃ j ≤ i, (Str.bytes pre).length ≤ j ∧ (Str.bytes (pre ++ s))[j]? = some 35 ∧
        ∀ k, j ≤ k → k ≤ i → ¬ IsCovered tokens k ∧ (Str.bytes (pre ++ s))[k]? ≠ some 10 := by
  induction h with
  | @eof pre gap hgap =>
    have hnone (k : Nat) : ¬ IsCovered [⟨.eof, spanAt (pre ++ gap) []⟩] k := by
      rintro ⟨t, ht, hle, hlt⟩
      obtain rfl := mem_singleton.mp ht
      simp only [spanAt, Span.stop, Str.bytes, flatMap_nil, length_nil, Nat.add_zero] at hle hlt
      omega
    refine (hgap.bytes [] h1 h2).imp (by simp) ?_
    rintro ⟨j, hj, hpre, hget, hall⟩
    exact ⟨j, hj, hpre, by simpa using hget, fun k hk1 hk2 => ⟨hnone k, by simpa using hall k hk1 hk2⟩⟩
  | @token pre gap body rest k tokens hgap hne _ _ _ hcut ih =>
    have hassoc : pre ++ (gap ++ body ++ rest) = pre ++ gap ++ (body ++ rest) := by simp
    have hassoc' : pre ++ (gap ++ body ++ rest) = pre ++ gap ++ body ++ rest := by simp
    have hstop : (⟨k, spanAt (pre ++ gap) body⟩ : Token).span.stop = (Str.bytes (pre ++ gap ++ body)).length := by
      rw [bytes_append (pre ++ gap), length_append]
      rfl
    have hle : (Str.bytes (pre ++ gap)).length ≤ (Str.bytes (pre ++ gap ++ body)).length := by
      rw [bytes_append (pre ++ gap), length_append]
      omega
    have hle' : (Str.bytes pre).length ≤ (Str.bytes (pre ++ gap)).length := by
      rw [bytes_append, length_append]
      omega
    rw [isCovered_cons, not_or, hstop] at hi
    by_cases hin : i < (Str.bytes (pre ++ gap)).length
    · rw [hassoc]
      refine (hgap.bytes (body ++ rest) h1 hin).imp id ?_
      rintro ⟨j, hj, hpre, hget, hall⟩
      refine ⟨j, hj, hpre, hget, fun m hm1 hm2 => ⟨?_, hall m hm1 hm2⟩⟩
      rw [isCovered_cons, not_or]
      exact ⟨fun hm => absurd hm.1 (by simp only [spanAt]; omega), hcut.not_isCovered (by omega)⟩
    · have hout : (Str.bytes (pre ++ gap ++ body)).length ≤ i := by
        by_contra hlt
        exact hi.1 ⟨Nat.le_of_not_lt hin, Nat.lt_of_not_le hlt⟩
      rw [hassoc'] at h2 ⊢
      refine (ih hout h2 hi.2).imp id ?_
      rintro ⟨j, hj, hpre, hget, hall⟩
      refine ⟨j, hj, by omega, hget, fun m hm1 hm2 => ⟨?_, (hall m hm1 hm2).2⟩⟩
      rw [isCovered_cons, not_or, hstop]
      exact ⟨fun hm => absurd hm.2 (by omega), (hall m hm1 hm2).1⟩

end Cut

theorem lex_map_eq_ok {ks : List TokenKind} : (lex text).map (·.map Token.kind) = .ok ks ↔ kinds text = some ks := by
  rw [← lex_kinds, map_eq_some_iff, map_eq_ok]
  simp only [toOption_eq_some]

theorem lex_isPartition {tokens : List Token} (h : lex text = .ok tokens) : IsPartition text tokens := by
  rw [lex_eq_scan] at h
  have hcut := scan_cut h
  have hlen := len_eq text
  constructor
  case eof =>
    obtain ⟨init, rfl, hinit⟩ := hcut.eof_last
    exact ⟨init, _, rfl, rfl, hinit, hlen.symm, rfl⟩
  case inBounds =>
    intro t ht
    obtain ⟨u, body, r, rfl, hspan, -⟩ := hcut.parts t ht
    simp [hspan, spanAt, Span.stop, hlen, bytes_append]
  case inOrder => exact hcut.inOrder
  case between =>
    intro i hi hcovered
    rw [hlen] at hi
    refine (hcut.between (Nat.zero_le i) hi hcovered).imp id ?_
    rintro ⟨j, hj, -, hget, hall⟩
    exact ⟨j, hj, hget, hall⟩
  case apart => exact hcut.apart
  case alone =>
    intro t ht hk
    obtain ⟨u, body, r, rfl, hspan, hkind⟩ := hcut.parts t ht
    refine ⟨body, ?_, lex_map_eq_ok.mpr (hkind hk)⟩
    rw [hspan]
    exact Lexer.slice_append u body r

theorem lex_hasLines_iff {tokens : List Token} (h : lex text = .ok tokens) :
    HasLines text tokens ↔ 1 + text.count '\n' < 2 ^ 32 := by
  rw [lex_eq_scan] at h
  have hcut := scan_cut h
  constructor
  · intro hlines
    obtain ⟨init, rfl, -⟩ := hcut.eof_last
    have hlast := hlines ⟨.eof, spanAt ([] ++ text) []⟩ (by simp)
    simp only [nil_append, spanAt, take_length, count_newline] at hlast
    rw [← hlast]
    exact UInt32.toNat_lt _
  · intro hlt t ht
    obtain ⟨u, body, r, rfl, hspan, -⟩ := hcut.parts t ht
    rw [hspan, bytes_append]
    simp only [count_append] at hlt
    simp only [nil_append, spanAt, take_left, count_newline, lineOf]
    rw [UInt32.toNat_ofNat', Nat.mod_eq_of_lt (by omega)]

end Pulsate.Flow
