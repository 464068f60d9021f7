import Pulsate.Flow.Lemmas.Cuts

/-!
# The reader and the lexer

A reader that looks at one character after another, and at the next one, finds the same token starts as the lexer, and it
knows why the lexer stops.
-/

namespace Pulsate.Flow

open List Lib Option

variable {m m' : Mode} {s u rest t pre : Str} {c : Char} {lx : Lexer}

namespace Mode

/-! ## Passing over a part of the text -/

/-- The reader passes over `u` before `rest`: no token starts there, and nothing is wrong. -/
structure Passes (m : Mode) (u rest : Str) (m' : Mode) : Prop where
  starts : ∀ pre, starts m pre (u ++ rest) = starts m' (pre ++ u) rest
  wide : hasWideEscape m (u ++ rest) = hasWideEscape m' rest
  after : m.after (u ++ rest) = m'.after rest

/-- A token starts at the first character of `u`, and the reader passes over the others. -/
structure Begins (m : Mode) (u rest : Str) (m' : Mode) : Prop where
  starts : ∀ pre, Flow.starts m pre (u ++ rest) = pre :: Flow.starts m' (pre ++ u) rest
  wide : hasWideEscape m (u ++ rest) = hasWideEscape m' rest
  after : m.after (u ++ rest) = m'.after rest

/-- The next character is looked at as one between tokens. -/
structure Rests (m : Mode) (s : Str) : Prop where
  closed : m.isOpen = false
  next : ∀ c t, s = c :: t → m.step c t.head? = between c t.head?

theorem rests_gap (s : Str) : Rests .gap s := ⟨rfl, fun _ _ _ => rfl⟩

theorem Rests.ne_escape (h : m.Rests s) : m ≠ .escape := by
  rintro rfl
  exact absurd h.closed (by decide)

theorem Passes.nil (m : Mode) (rest : Str) : m.Passes [] rest m := ⟨by simp, rfl, rfl⟩

theorem Passes.cons {m₁ : Mode} (hstep : m.step c (u ++ rest).head? = (false, m₁)) (hm : m ≠ .escape ∨ c.toNat < 128)
    (h : m₁.Passes u rest m') : m.Passes (c :: u) rest m' := by
  constructor
  · intro pre
    simp only [cons_append, Flow.starts, hstep, Bool.false_eq_true, if_false, nil_append]
    rw [h.starts, append_assoc]
    rfl
  · have hnarrow : (m == .escape && decide (128 ≤ c.toNat)) = false := by
      rcases hm with hm | hm
      · simp [hm]
      · simp [Nat.not_le.mpr hm]
    simp only [cons_append, hasWideEscape, hstep, hnarrow, Bool.false_or]
    exact h.wide
  · simp only [cons_append, Mode.after, hstep]
    exact h.after

theorem Passes.stay (rest : Str) (hm : m ≠ .escape) (h : ∀ c ∈ u, ∀ next, m.step c next = (false, m)) : m.Passes u rest m := by
  induction u with
  | nil => exact .nil m rest
  | cons c u ih =>
    rw [forall_mem_cons] at h
    exact .cons (h.1 _) (.inl hm) (ih h.2)

theorem Begins.of_passes {m₁ : Mode} (hm : m ≠ .escape) (hstep : m.step c (u ++ rest).head? = (true, m₁))
    (h : m₁.Passes u rest m') : m.Begins (c :: u) rest m' := by
  constructor
  · intro pre
    simp only [cons_append, Flow.starts, hstep, if_true]
    rw [h.starts, append_assoc]
    rfl
  · simp only [cons_append, hasWideEscape, hstep, beq_eq_false_iff_ne.mpr hm, Bool.false_and, Bool.false_or]
    exact h.wide
  · simp only [cons_append, Mode.after, hstep]
    exact h.after

/-! ## The parts that the lexer cuts out -/

theorem passes_gap (hm : m.Rests s) : ∃ m' : Mode,
    m.Passes (s.take (skipHorizontalLen id s)) (s.drop (skipHorizontalLen id s)) m' ∧
      m'.Rests (s.drop (skipHorizontalLen id s)) := by
  induction s generalizing m with
  | nil => exact ⟨m, .nil m _, hm⟩
  | cons c t ih =>
    have hnext := hm.next c t rfl
    simp only [skipHorizontalLen, id_eq]
    split
    · rename_i hc
      obtain ⟨m', hpass, hrest⟩ := ih (rests_gap t)
      refine ⟨m', .cons ?_ (.inl hm.ne_escape) hpass, hrest⟩
      rw [drop_succ_cons, take_append_drop, hnext]
      simp [between, hc]
    split
    · rename_i hc
      subst hc
      have hlen : commentLen id ('#' :: t) = (t.takeWhile (· ≠ '\n')).length + 1 := by simp [commentLen]
      have htake : t.take (t.takeWhile (· ≠ '\n')).length = t.takeWhile (· ≠ '\n') :=
        (prefix_iff_eq_take.mp (List.takeWhile_prefix _)).symm
      rw [hlen, take_succ_cons, drop_succ_cons, drop_takeWhile, htake]
      refine ⟨.comment, .cons ?_ (.inl hm.ne_escape) (.stay _ (by decide) ?_), rfl, ?_⟩
      · rw [takeWhile_append_dropWhile, hnext]
        rfl
      · intro c hc next
        have hne : c ≠ '\n' := by
          rintro rfl
          exact notMem_takeWhile_ne _ _ hc
        simp [step, hne]
      · intro c u hu
        obtain rfl := dropWhile_ne_cons hu
        rfl
    · exact ⟨m, .nil m _, hm⟩

theorem passes_run (inComment : Bool) (s : Str) : ∃ m' : Mode,
    (if inComment then sepsComment else seps).Passes (s.take (separatorRunLen id inComment s))
      (s.drop (separatorRunLen id inComment s)) m' ∧ m'.Rests (s.drop (separatorRunLen id inComment s)) := by
  induction s generalizing inComment with
  | nil =>
    refine ⟨_, .nil _ _, ?_, ?_⟩
    · cases inComment <;> rfl
    · rintro c t ⟨⟩
  | cons c t ih =>
    simp only [separatorRunLen, id_eq]
    split
    · rename_i hin
      obtain ⟨m', hpass, hrest⟩ := ih (decide (c ≠ '\n'))
      refine ⟨m', .cons ?_ (.inl (by simp)) hpass, hrest⟩
      by_cases hc : c = '\n' <;> simp [step, hc]
    split
    · rename_i hc
      obtain ⟨m', hpass, hrest⟩ := ih false
      refine ⟨m', .cons ?_ (.inl (by simp)) hpass, hrest⟩
      simp only [step, hc, if_true]
      rfl
    split
    · rename_i hc
      subst hc
      obtain ⟨m', hpass, hrest⟩ := ih true
      exact ⟨m', .cons rfl (.inl (by simp)) hpass, hrest⟩
    · rename_i h1 h2
      refine ⟨seps, .nil _ _, rfl, ?_⟩
      rintro d u hu
      cases hu
      simp [step, h1, h2]

theorem passes_atom (s : Str) :
    atom.Passes (s.take (atomLen id s)) (s.drop (atomLen id s)) atom ∧ atom.Rests (s.drop (atomLen id s)) := by
  induction s with
  | nil => exact ⟨.nil _ _, rfl, by rintro c t ⟨⟩⟩
  | cons c t ih =>
    simp only [atomLen, id_eq, Option.map_id]
    split
    · rename_i hend
      refine ⟨.nil _ _, rfl, ?_⟩
      rintro d u hu
      cases hu
      simp only [step, hend, if_true]
    · rename_i hend
      refine ⟨.cons ?_ (.inl (by simp)) ih.1, ih.2⟩
      rw [drop_succ_cons, take_append_drop]
      simp only [step, if_neg hend]

theorem ne_backslash (hnil : c = '\\' → ¬ s = []) (hcons : ∀ d t, c = '\\' → ¬ s = d :: t) : c ≠ '\\' := by
  intro hc
  cases s with
  | nil => exact hnil hc rfl
  | cons d t => exact hcons d t hc rfl

theorem passes_string {v r : Str} (h : stringRest s = some (v, r)) : ∃ body, s = body ++ r ∧ string.Passes body r gap := by
  fun_induction stringRest s generalizing v with
  | case1 => cases h
  | case2 s =>
    cases h
    exact ⟨['"'], rfl, .cons rfl (.inl (by simp)) (.nil _ _)⟩
  | case3 => cases h
  | case4 c s hc ih =>
    obtain ⟨⟨v', r'⟩, hv, he⟩ := map_eq_some_iff.mp h
    cases he
    obtain ⟨body, rfl, hpass⟩ := ih hv
    exact ⟨'\\' :: c :: body, rfl, .cons rfl (.inl (by simp)) (.cons rfl (.inr hc) hpass)⟩
  | case5 => cases h
  | case6 c s hq hnil hcons ih =>
    obtain ⟨⟨v', r'⟩, hv, he⟩ := map_eq_some_iff.mp h
    cases he
    have hs := ne_backslash hnil hcons
    obtain ⟨body, rfl, hpass⟩ := ih hv
    exact ⟨c :: body, rfl, .cons (by simp_all [step]) (.inl (by simp)) hpass⟩

/-- Why a string literal has no end: the lexer cuts into a character, or there is no closing quote. -/
theorem string_unread (h : stringRest s = none) :
    if Lexer.cutsInto s then hasWideEscape string s else ∃ m : Mode, string.Passes s [] m ∧ m.isOpen := by
  fun_induction stringRest s with
  | case1 => exact ⟨string, .nil _ _, rfl⟩
  | case2 => cases h
  | case3 => exact ⟨escape, .cons rfl (.inl (by simp)) (.nil _ _), rfl⟩
  | case4 c s hc ih =>
    have hpass : string.Passes ['\\', c] s string := .cons rfl (.inl (by simp)) (.cons rfl (.inr hc) (.nil string s))
    have hwide : hasWideEscape string ('\\' :: c :: s) = hasWideEscape string s := hpass.wide
    have ih := ih (map_eq_none_iff.mp h)
    simp only [Lexer.cutsInto, if_pos hc, hwide]
    split
    · rwa [if_pos ‹_›] at ih
    · rw [if_neg ‹_›] at ih
      obtain ⟨m, hrest, hm⟩ := ih
      exact ⟨m, .cons rfl (.inl (by simp)) (.cons rfl (.inr hc) hrest), hm⟩
  | case5 c s hc =>
    have h128 : 128 ≤ c.toNat := Nat.le_of_not_lt hc
    simp [Lexer.cutsInto, hc, hasWideEscape, step, h128]
  | case6 c s hq hnil hcons ih =>
    have hs := ne_backslash hnil hcons
    have hstep (next : Option Char) : string.step c next = (false, string) := by simp_all [step]
    have hpass : string.Passes [c] s string := .cons (hstep _) (.inl (by simp)) (.nil string s)
    have hwide : hasWideEscape string (c :: s) = hasWideEscape string s := hpass.wide
    have ih := ih (map_eq_none_iff.mp h)
    rw [Lexer.cutsInto_plain s hq hs, hwide]
    split
    · rwa [if_pos ‹_›] at ih
    · rw [if_neg ‹_›] at ih
      obtain ⟨m, hrest, hm⟩ := ih
      exact ⟨m, .cons (hstep _) (.inl (by simp)) hrest, hm⟩

theorem passes_env {v : Str} (rest : Str) (hv : '}' ∉ v) : env.Passes v rest env := by
  refine .stay rest (by simp) ?_
  intro c hc next
  have hne : c ≠ '}' := by
    rintro rfl
    exact hv hc
  simp [step, hne]

theorem passes_env_close {v : Str} (rest : Str) (hv : '}' ∉ v) : env.Passes (v ++ ['}']) rest gap := by
  induction v with
  | nil => exact .cons rfl (.inl (by simp)) (.nil gap rest)
  | cons c v ih =>
    rw [mem_cons, not_or] at hv
    refine .cons ?_ (.inl (by simp)) (ih hv.2)
    simp [step, Ne.symm hv.1]

/-! ## Tokens -/

theorem Rests.step_token (hm : m.Rests (c :: t)) (hh : isHorizontal c = false) (hg : c ≠ '#') :
    m.step c t.head? = (true, first c t.head?) := by
  rw [hm.next c t rfl]
  simp [between, hh, hg]

theorem begins_run (hm : m.Rests (c :: t)) (hh : isHorizontal c = false) (hg : c ≠ '#') (hs : isSeparator c) : ∃ m' : Mode,
    m.Begins (c :: t.take (separatorRunLen id false t)) (t.drop (separatorRunLen id false t)) m' ∧
      m'.Rests (t.drop (separatorRunLen id false t)) := by
  obtain ⟨m', hpass, hrest⟩ := passes_run false t
  refine ⟨m', .of_passes hm.ne_escape ?_ hpass, hrest⟩
  rw [take_append_drop, hm.step_token hh hg]
  simp [first, hs]

theorem first_cases (hs : isSeparator c = false) :
    first c t.head? =
      if (Lexer.single c).isSome then .gap
      else if c = '~' ∧ t.head? = some '>' then .arrow
      else if c = '"' then .string
      else if c = '$' ∧ t.head? = some '{' then .env
      else .atom := by
  simp [first, hs]

theorem begins_token {r : Str} {k : TokenKind} (hm : m.Rests (c :: (u ++ r))) (hh : isHorizontal c = false) (hg : c ≠ '#')
    (hs : isSeparator c = false) (h : Flow.nextKind c (u ++ r) = some (k, r)) :
    ∃ m' : Mode, m.Begins (c :: u) r m' ∧ m'.Rests r := by
  have hstep := hm.step_token hh hg
  rw [first_cases hs] at hstep
  rcases nextKind_cases h with ⟨hk, hr⟩ | ⟨rfl, ht, -⟩ | ⟨rfl, v, hv, -⟩ | ⟨rfl, v, ht, hv, -⟩ | ⟨hk, h1, h2, h3, hr, -⟩
  · obtain rfl : u = [] := self_eq_append_left.mp hr
    exact ⟨gap, .of_passes hm.ne_escape (by simpa [hk] using hstep) (.nil gap r), rests_gap r⟩
  · obtain rfl : u = ['>'] := append_cancel_right (ht : u ++ r = ['>'] ++ r)
    have harrow : m.step '~' (['>'] ++ r : Str).head? = (true, arrow) := hstep
    exact ⟨gap, .of_passes hm.ne_escape harrow (.cons rfl (.inl (by simp)) (.nil gap r)), rests_gap r⟩
  · obtain ⟨body, hbody, hpass⟩ := passes_string hv
    obtain rfl : u = body := append_cancel_right hbody
    exact ⟨gap, .of_passes hm.ne_escape hstep hpass, rests_gap r⟩
  · obtain rfl : u = '{' :: (v ++ ['}']) := append_cancel_right (by simpa using ht)
    have henv : m.step '$' ('{' :: (v ++ ['}']) ++ r : Str).head? = (true, env) := hstep
    exact ⟨gap, .of_passes hm.ne_escape henv (.cons rfl (.inl (by simp)) (passes_env_close r hv)), rests_gap r⟩
  · have hu : u = (u ++ r).take (atomLen id (u ++ r)) := by
      have hsplit := take_append_drop (atomLen id (u ++ r)) (u ++ r)
      rw [← hr] at hsplit
      exact (append_cancel_right hsplit).symm
    obtain ⟨hpass, hrest⟩ := passes_atom (u ++ r)
    rw [← hr, ← hu] at hpass
    rw [← hr] at hrest
    refine ⟨atom, .of_passes hm.ne_escape ?_ hpass, hrest⟩
    rw [hstep, hk, if_neg (by simp), if_neg h1, if_neg h2, if_neg h3]

end Mode

/-! ## The text as a whole -/

/-- What the reader knows of the answer of the lexer. -/
def Agrees (m : Mode) (pre s : Str) : Except Failure (List Token) → Prop
  | .ok tokens => hasWideEscape m s = false ∧ (m.after s).isOpen = false ∧
      List.Forall₂ (fun t p => ∃ body, t.span = spanAt p body) tokens (starts m pre s ++ [pre ++ s])
  | .error (.diag d) => hasWideEscape m s = false ∧ (m.after s).isOpen ∧
      ∃ p body, (starts m pre s).getLast? = some p ∧ p ++ body = pre ++ s ∧ d.span = spanAt p body
  | .error .panic => hasWideEscape m s
  | .error .outOfFuel => False

theorem Agrees.gap {res : Except Failure (List Token)} (hpass : m.Passes u s m') (h : Agrees m' (pre ++ u) s res) :
    Agrees m pre (u ++ s) res := by
  match res, h with
  | .ok tokens, ⟨h1, h2, h3⟩ =>
    refine ⟨hpass.wide.trans h1, by rw [hpass.after, h2], ?_⟩
    rw [hpass.starts, ← append_assoc]
    exact h3
  | .error (.diag d), ⟨h1, h2, p, body, h3, h4, h5⟩ =>
    exact ⟨hpass.wide.trans h1, by rw [hpass.after, h2], p, body, by rw [hpass.starts, h3], by simpa using h4, h5⟩
  | .error .panic, h => exact hpass.wide.trans h

theorem Agrees.token (pre : Str) {body : Str} {res : Except Failure (List Token)} (k : TokenKind)
    (hbegins : m.Begins body rest m') (h : Agrees m' (pre ++ body) rest res) :
    Agrees m pre (body ++ rest) (res.map (⟨k, spanAt pre body⟩ :: ·)) := by
  match res, h with
  | .ok tokens, ⟨h1, h2, h3⟩ =>
    refine ⟨hbegins.wide.trans h1, by rw [hbegins.after, h2], ?_⟩
    rw [hbegins.starts, ← append_assoc]
    exact .cons ⟨body, rfl⟩ h3
  | .error (.diag d), ⟨h1, h2, p, body', h3, h4, h5⟩ =>
    refine ⟨hbegins.wide.trans h1, by rw [hbegins.after, h2], p, body', ?_, by simpa using h4, h5⟩
    rw [hbegins.starts, getLast?_cons, h3]
    rfl
  | .error .panic, h => exact hbegins.wide.trans h

theorem Agrees.unclosed {d : Diagnostic} (hbegins : m.Begins s [] m') (hopen : m'.isOpen) (hd : d.span = spanAt pre s) :
    Agrees m pre s (.error (.diag d)) := by
  have hstarts := hbegins.starts pre
  have hwide := hbegins.wide
  have hafter := hbegins.after
  rw [append_nil] at hstarts hwide hafter
  exact ⟨hwide, by rw [hafter]; exact hopen, pre, s, by rw [hstarts]; rfl, rfl, hd⟩

theorem agrees_failure (hm : m.Rests (c :: t)) (h : nextKind c t = none) :
    Agrees m pre (c :: t) (.error (Lexer.nextFailure pre c t)) := by
  rcases nextKind_none h with ⟨rfl, hrest⟩ | ⟨rfl, u, rfl, hu⟩
  · have hstep : m.step '"' t.head? = (true, .string) := hm.step_token rfl (by decide)
    have hread := Mode.string_unread hrest
    simp only [Lexer.nextFailure, if_true]
    split
    · rename_i hcut
      rw [if_pos hcut] at hread
      simp only [Agrees, hasWideEscape, hstep, hread, Bool.or_true]
    · rename_i hcut
      rw [if_neg hcut] at hread
      obtain ⟨m', hpass, hopen⟩ := hread
      exact Agrees.unclosed (.of_passes hm.ne_escape (by simpa using hstep) hpass) hopen rfl
  · have hstep : m.step '$' ('{' :: u : Str).head? = (true, .env) := hm.step_token rfl (by decide)
    have hpass := Mode.Passes.cons (m := .env) (c := '{') rfl (.inl (by simp)) (Mode.passes_env [] hu)
    exact Agrees.unclosed (.of_passes hm.ne_escape (by simpa using hstep) hpass) rfl rfl

theorem scan_agrees (hm : m.Rests s) : Agrees m pre s (scan pre s) := by
  induction hn : s.length using Nat.strong_induction_on generalizing m pre s with
  | _ n ih =>
    obtain ⟨m₁, hpass, hm₁⟩ := Mode.passes_gap hm
    have hsplit := take_append_drop (skipHorizontalLen id s) s
    have hgap : Agrees m₁ (pre ++ s.take (skipHorizontalLen id s)) (s.drop (skipHorizontalLen id s)) (scan pre s) := by
      rw [scan_eq]
      cases hs : s.drop (skipHorizontalLen id s) with
      | nil =>
        rw [hs, append_nil] at hsplit
        rw [hsplit]
        refine ⟨rfl, hm₁.closed, ?_⟩
        rw [append_nil]
        exact .cons ⟨[], rfl⟩ .nil
      | cons c t =>
        obtain ⟨hh, hg⟩ := Lexer.skipHorizontal_next hs
        have hlen := congrArg List.length hs
        simp only [length_drop, length_cons] at hlen
        rw [hs] at hm₁
        simp only
        split
        · rename_i hc
          obtain ⟨m₂, hbegins, hm₂⟩ := Mode.begins_run hm₁ hh hg hc
          have hrest := Agrees.token (pre ++ s.take (skipHorizontalLen id s)) .sep hbegins (ih _ (by rw [length_drop]; omega) hm₂ rfl)
          rwa [cons_append, take_append_drop] at hrest
        · rename_i hc
          cases hk : nextKind c t with
          | none => exact agrees_failure hm₁ hk
          | some kr =>
            obtain ⟨k, r⟩ := kr
            obtain ⟨u, rfl⟩ := nextKind_tail hk
            have htake : (c :: (u ++ r)).take ((c :: (u ++ r)).length - r.length) = c :: u := by
              rw [← cons_append, length_append, Nat.add_sub_cancel, take_left]
            obtain ⟨m₂, hbegins, hm₂⟩ := Mode.begins_token hm₁ hh hg (by simpa using hc) hk
            rw [length_append] at hlen
            simp only [htake]
            exact Agrees.token _ k hbegins (ih r.length (by omega) hm₂ rfl)
    have := hgap.gap hpass
    rwa [hsplit] at this

theorem lex_agrees (text : Str) : Agrees .gap [] text (lex text) := by
  rw [lex_eq_scan]
  exact scan_agrees (Mode.rests_gap text)

/-! ## Indices in bounds -/

section Bounds

variable {α : Type} (char : α → Char)

theorem commentLen_le (items : List α) : commentLen char items ≤ items.length :=
  (takeWhile_sublist _).length_le

theorem skipHorizontalLen_le (items : List α) : skipHorizontalLen char items ≤ items.length := by
  fun_induction skipHorizontalLen char items with
  | case1 => simp
  | case2 b rest _ ih => exact Nat.succ_le_succ ih
  | case3 b rest => exact commentLen_le char (b :: rest)
  | case4 => simp

theorem separatorRunLen_le_length (inComment : Bool) (items : List α) :
    separatorRunLen char inComment items ≤ items.length := by
  induction items generalizing inComment with
  | nil => simp [separatorRunLen]
  | cons b rest ih =>
    simp only [separatorRunLen, length_cons]
    split
    · exact Nat.succ_le_succ (ih _)
    split
    · exact Nat.succ_le_succ (ih _)
    split
    · exact Nat.succ_le_succ (ih _)
    · exact Nat.zero_le _

end Bounds

namespace Lexer.Checked

theorem bump_eq (h : lx.bytes ≠ []) : bump lx = .ok lx.bump := by
  rw [bump]
  split
  · exact absurd ‹_› h
  · rfl

theorem bumps_eq {n : Nat} (h : n ≤ lx.bytes.length) : bumps lx n = .ok (lx.bumps n) := by
  induction n generalizing lx with
  | zero => rfl
  | succ n ih =>
    have hne : lx.bytes ≠ [] := by
      rintro h0
      rw [h0] at h
      cases h
    rw [bumps, bump_eq hne, ok_bind, ih (by rw [bump_bytes, length_drop]; omega)]
    rfl

theorem ne_nil_of_peek (h : lx.peek = some c) : lx.bytes ≠ [] := by
  rintro h0
  simp [peek, h0] at h

theorem stringBody_eq (start : Lexer) (fuel : Nat) (lx : Lexer) (value : Str) :
    stringBody start fuel lx value = Lexer.stringBody start fuel lx value := by
  induction fuel generalizing lx value with
  | zero => rfl
  | succ fuel ih =>
    rw [stringBody, Lexer.stringBody]
    cases hb : lx.bytes with
    | nil => rfl
    | cons b rest =>
      have hne : lx.bytes ≠ [] := by simp [hb]
      have hwhole : 1 + (rest.takeWhile isContinuation).length ≤ lx.bytes.length := by
        have := (takeWhile_sublist isContinuation (l := rest)).length_le
        rw [hb, length_cons]
        omega
      simp only [bump_eq hne, bumps_eq hwhole, ok_bind, slice]
      split
      · rfl
      split
      · cases hp : lx.bump.peek with
        | none => exact ih _ _
        | some c => simp only [bump_eq (ne_nil_of_peek hp), ok_bind, ih]
      · cases lx.text.slice lx.pos (lx.bumps (1 + (rest.takeWhile isContinuation).length)).pos with
        | none => rfl
        | some chars => exact ih _ _

theorem lexString_eq (h : lx.bytes ≠ []) : lexString lx = Lexer.lexString lx := by
  rw [lexString, bump_eq h, ok_bind, stringBody_eq]
  rfl

theorem lexEnv_eq (h : 2 ≤ lx.bytes.length) : lexEnv lx = Lexer.lexEnv lx := by
  have hinner : lx.bumps 2 = lx.bump.bump := rfl
  have hle := (takeWhile_sublist (fun b => decide (Char.ofUInt8 b ≠ '}')) (l := lx.bump.bump.bytes)).length_le
  rw [lexEnv, bumps_eq h, ok_bind, hinner, bumps_eq hle, ok_bind, Lexer.lexEnv]
  generalize lx.bump.bump.bumps _ = stop
  cases hstop : stop.bytes with
  | nil => simp only
  | cons b rest =>
    simp only [bump_eq (by rw [hstop]; simp : stop.bytes ≠ []), slice]
    cases lx.text.slice lx.bump.bump.pos stop.pos with
    | none => rfl
    | some s => rfl

theorem lexAtom_eq (lx : Lexer) : lexAtom lx = Lexer.lexAtom lx := by
  rw [lexAtom, bumps_eq (atomLen_le_length _ _), ok_bind, Lexer.lexAtom, slice]
  cases lx.text.slice lx.pos (lx.bumps (atomLen Char.ofUInt8 lx.bytes)).pos with
  | none => rfl
  | some raw => rfl

theorem two_le_of_peek2 (h : lx.peek2 = some c) : 2 ≤ lx.bytes.length := by
  rw [peek2] at h
  cases hb : lx.bytes with
  | nil => simp [hb] at h
  | cons b rest =>
    cases rest with
    | nil => simp [hb] at h
    | cons => simp

theorem nextToken_eq (h : lx.peek = some c) : nextToken lx = Lexer.nextToken lx c := by
  have hne := ne_nil_of_peek h
  rw [nextToken, h, Lexer.nextToken]
  cases hk : single c with
  | some kind =>
    simp only [hk, bump_eq hne]
    rfl
  | none =>
    simp only [hk]
    split
    · rename_i htilde
      rw [bumps_eq (two_le_of_peek2 htilde.2)]
      rfl
    split
    · exact lexString_eq hne
    split
    · rename_i hdollar
      exact lexEnv_eq (two_le_of_peek2 hdollar.2)
    · exact lexAtom_eq lx

theorem run_eq (fuel : Nat) (lx : Lexer) : run fuel lx = Lexer.run fuel lx := by
  induction fuel generalizing lx with
  | zero => rfl
  | succ fuel ih =>
    have hskip : lx.bumps (skipHorizontalLen Char.ofUInt8 lx.bytes) = lx.skipHorizontal := rfl
    rw [run, Lexer.run, bumps_eq (skipHorizontalLen_le _ _), ok_bind, hskip]
    cases hp : lx.skipHorizontal.peek with
    | none => rfl
    | some c =>
      simp only
      split
      · rw [bumps_eq (separatorRunLen_le_length _ _ _), ok_bind]
        simp only [ih]
        rfl
      · rw [nextToken_eq hp]
        simp only [ih]

theorem lex_eq (text : Str) : lex text = Flow.lex text := run_eq _ _

end Lexer.Checked

end Pulsate.Flow
