import Pulsate.Flow.Lemmas.Kinds

/-!
# Lexing written text

Rules to read off the tokens of a text that is put together from words, punctuation and line breaks.
-/

namespace Pulsate.Flow

open List

variable {c d : Char} {a s ws : Str}

/-! ## One token -/

theorem kinds_horizontal (hc : isHorizontal c) (s : Str) : kinds (c :: s) = kinds s := by
  rw [kinds_eq, kinds_eq s]
  simp [skipHorizontalLen, hc]

theorem kinds_token (hh : isHorizontal c = false) (hg : c ≠ '#') (hs : isSeparator c = false) (s : Str) :
    kinds (c :: s) = (nextKind c s).bind (fun kr => (kinds kr.2).map (kr.1 :: ·)) := by
  rw [kinds_eq]
  simp [skipHorizontalLen, hh, hg, hs]

theorem kinds_separator (hc : isSeparator c) (s : Str) :
    kinds (c :: s) = (kinds (s.drop (separatorRunLen id false s))).map (.sep :: ·) := by
  have hh : isHorizontal c = false := by
    simp only [isSeparator, Bool.or_eq_true, beq_iff_eq] at hc
    rcases hc with rfl | rfl <;> rfl
  have hg : c ≠ '#' := by rintro rfl; cases hc
  rw [kinds_eq]
  simp [skipHorizontalLen, hh, hg, hc]

theorem kinds_single {k : TokenKind} (hc : Lexer.single c = some k) (s : Str) : kinds (c :: s) = (kinds s).map (k :: ·) := by
  have hne : ∀ {d : Char}, Lexer.single d = none → c ≠ d := by
    rintro d hd rfl
    rw [hc] at hd
    cases hd
  have hh : isHorizontal c = false := by
    simp [isHorizontal, hne (d := ' ') rfl, hne (d := '\t') rfl, hne (d := '\r') rfl]
  have hs : isSeparator c = false := by
    simp [isSeparator, hne (d := '\n') rfl, hne (d := ';') rfl]
  rw [kinds_token hh (hne rfl) hs, nextKind, hc]
  rfl

theorem kinds_arrow (s : Str) : kinds ('~' :: '>' :: s) = (kinds s).map (.arrow :: ·) := by
  rw [kinds_token rfl (by decide) rfl]
  rfl

theorem stringRest_quoted (s r : Str) :
    stringRest (s.flatMap (fun c => if c = '\\' ∨ c = '"' then ['\\', c] else [c]) ++ '"' :: r) = some (s, r) := by
  induction s with
  | nil => rfl
  | cons c s ih =>
    rw [flatMap_cons]
    split
    · rename_i hc
      rcases hc with rfl | rfl
      · simp [stringRest, ih, Lexer.unescape]
      · simp [stringRest, ih, Lexer.unescape]
    · rename_i hc
      rw [not_or] at hc
      rw [cons_append, cons_append, nil_append, Lexer.stringRest_plain _ hc.2 hc.1, ih]
      rfl

/-- A quoted string is one token, whatever comes behind it. -/
theorem kinds_quoted (s r : Str) : kinds (quoted s ++ r) = (kinds r).map (.str s :: ·) := by
  have hnext (t : Str) : nextKind '"' t = (stringRest t).map (fun r => (.str r.1, r.2)) := rfl
  rw [quoted, cons_append, cons_append, kinds_token rfl (by decide) rfl, hnext, append_assoc,
    singleton_append, stringRest_quoted]
  rfl

/-- A text that is a single atom wherever it stands before the end of one. -/
structure IsWord (a : Str) : Prop where
  ne_nil : a ≠ []
  head : a.head? ≠ some '$'
  chars : ∀ c ∈ a, isAtomEnd c = false ∧ c ≠ '~'

instance (a : Str) : Decidable (IsWord a) :=
  decidable_of_iff (a ≠ [] ∧ a.head? ≠ some '$' ∧ a.all (fun c => decide (isAtomEnd c = false ∧ c ≠ '~')))
    ⟨fun ⟨h1, h2, h3⟩ => ⟨h1, h2, Str.forall_mem_of_all h3⟩,
      fun ⟨h1, h2, h3⟩ => ⟨h1, h2, Str.all_of_forall_mem h3⟩⟩

theorem atomLen_word (ha : ∀ c ∈ a, isAtomEnd c = false ∧ c ≠ '~') (hd : isAtomEnd d) (s : Str) :
    atomLen id (a ++ d :: s) = a.length := by
  induction a with
  | nil => simp [atomLen, hd]
  | cons c a ih =>
    obtain ⟨h1, h2⟩ := ha c mem_cons_self
    rw [cons_append, Lexer.atomLen_cons h1 (fun h => h2 h.1),
      ih (fun d hd => ha d (mem_cons_of_mem _ hd)), length_cons]

theorem isAtomEnd_cases (h : isAtomEnd c = false) :
    isHorizontal c = false ∧ c ≠ '#' ∧ isSeparator c = false ∧ Lexer.single c = none ∧ c ≠ '"' := by
  refine ⟨?_, ?_, ?_, ?_, ?_⟩
  · simp only [isAtomEnd, Bool.or_eq_false_iff] at h; tauto
  · rintro rfl; cases h
  · simp only [isAtomEnd, Bool.or_eq_false_iff] at h; tauto
  · cases hs : Lexer.single c with
    | none => rfl
    | some k => rw [Lexer.single_isAtomEnd hs] at h; cases h
  · rintro rfl; cases h

theorem kinds_word (ha : IsWord a) (hd : isAtomEnd d) (s : Str) :
    kinds (a ++ d :: s) = (kinds (d :: s)).map (.atom a :: ·) := by
  obtain ⟨hne, hhead, hchars⟩ := ha
  cases a with
  | nil => exact absurd rfl hne
  | cons c a =>
    obtain ⟨hc, htilde⟩ := hchars c mem_cons_self
    obtain ⟨hh, hg, hs, hsing, hq⟩ := isAtomEnd_cases hc
    have hdollar : c ≠ '$' := by rintro rfl; exact hhead rfl
    have hlen := atomLen_word (fun x hx => hchars x (mem_cons_of_mem _ hx)) hd s
    rw [cons_append, kinds_token hh hg hs]
    simp [nextKind, hsing, htilde, hq, hdollar, hlen]

/-! ## Line breaks and comments -/

def isBlank (c : Char) : Bool := isSeparator c || isHorizontal c

/-- A token starts here, or the text is over. -/
def Starts (s : Str) : Prop := ∀ c, s.head? = some c → isBlank c = false ∧ c ≠ '#'

theorem starts_cons (hb : isBlank c = false) (hg : c ≠ '#') : Starts (c :: s) := by
  intro d hd
  cases hd
  exact ⟨hb, hg⟩

theorem separatorRunLen_blank (hw : ∀ c ∈ ws, isBlank c) (hs : Starts s) :
    separatorRunLen id false (ws ++ s) = ws.length := by
  induction ws with
  | nil =>
    cases s with
    | nil => rfl
    | cons c s =>
      obtain ⟨hb, hg⟩ := hs c rfl
      rw [isBlank] at hb
      simp [separatorRunLen, hb, hg]
  | cons c ws ih =>
    have hc := hw c mem_cons_self
    rw [isBlank] at hc
    simp [separatorRunLen, hc, ih (fun d hd => hw d (mem_cons_of_mem _ hd))]

theorem kinds_break (hw : ∀ c ∈ ws, isBlank c) (hs : Starts s) :
    kinds ('\n' :: (ws ++ s)) = (kinds s).map (.sep :: ·) := by
  rw [kinds_separator rfl, separatorRunLen_blank hw hs, drop_left]

theorem kinds_comment {u : Str} (hu : '\n' ∉ u) (s : Str) :
    kinds ('#' :: (u ++ '\n' :: s)) = kinds ('\n' :: s) := by
  have hlen : commentLen id ('#' :: (u ++ '\n' :: s)) = u.length + 1 := by
    have hall : ∀ c ∈ '#' :: u, decide (id c ≠ '\n') := by
      intro c hc
      rcases mem_cons.mp hc with rfl | hc
      · rfl
      · simp only [id_eq, ne_eq, decide_not, Bool.not_eq_eq_eq_not, Bool.not_true, decide_eq_false_iff_not]
        rintro rfl
        exact hu hc
    rw [commentLen, ← cons_append, takeWhile_append_of_pos hall]
    simp
  have hskip : skipHorizontalLen id ('#' :: (u ++ '\n' :: s)) = u.length + 1 := by
    rw [skipHorizontalLen, if_neg (by decide), if_pos (show id '#' = '#' from rfl), hlen]
  rw [kinds_eq, hskip, drop_succ_cons, drop_left, kinds_eq ('\n' :: s)]
  simp [skipHorizontalLen, isHorizontal]

/-! ## Pieces of text -/

/-- The piece lexes to `ks` wherever a character follows that ends atoms. -/
def Lexes (u : Str) (ks : List TokenKind) : Prop :=
  ∀ c s, isAtomEnd c → kinds (u ++ c :: s) = (kinds (c :: s)).map (ks ++ ·)

namespace Lexes

variable {u v : Str} {ks ks' : List TokenKind}

theorem nil : Lexes [] [] := fun _ _ _ => by simp

theorem word (h : IsWord u) : Lexes u [.atom u] := fun _ s hc => kinds_word h hc s

theorem append (hu : Lexes u ks) (hd : isAtomEnd d) (hv : Lexes (d :: v) ks') : Lexes (u ++ d :: v) (ks ++ ks') := by
  intro c s hc
  rw [append_assoc, cons_append, hu d _ hd, ← cons_append, hv c s hc, Option.map_map]
  congr 1
  funext l
  simp

theorem space (hv : Lexes v ks) : Lexes (' ' :: v) ks := by
  intro c s hc
  rw [cons_append, kinds_horizontal rfl, hv c s hc]

theorem single {k : TokenKind} (hd : Lexer.single d = some k) (hv : Lexes v ks) : Lexes (d :: v) (k :: ks) := by
  intro c s hc
  rw [cons_append, kinds_single hd, hv c s hc, Option.map_map]
  rfl

theorem arrow (hv : Lexes v ks) : Lexes ('~' :: '>' :: v) (.arrow :: ks) := by
  intro c s hc
  rw [cons_append, cons_append, kinds_arrow, hv c s hc, Option.map_map]
  rfl

theorem newline (hw : ∀ c ∈ ws, isBlank c) (hs : Starts v) (hne : v ≠ []) (hv : Lexes v ks) :
    Lexes ('\n' :: (ws ++ v)) (.sep :: ks) := by
  intro c s hc
  have hs' : Starts (v ++ c :: s) := by
    cases v with
    | nil => exact absurd rfl hne
    | cons d v => exact hs
  rw [cons_append, append_assoc, kinds_break hw hs', hv c s hc, Option.map_map]
  rfl

end Lexes

theorem starts_word (ha : IsWord a) (s : Str) : Starts (a ++ s) := by
  obtain ⟨hne, -, hchars⟩ := ha
  cases a with
  | nil => exact absurd rfl hne
  | cons c a =>
    obtain ⟨hh, hg, hs, -, -⟩ := isAtomEnd_cases (hchars c mem_cons_self).1
    exact starts_cons (by rw [isBlank, hs, hh]; rfl) hg

end Pulsate.Flow
