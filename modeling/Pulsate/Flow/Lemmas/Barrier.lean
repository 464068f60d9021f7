import Pulsate.Flow.Lemmas.Machine

/-!
# What a parser does not read past

Values, arguments and routes never take in a closing brace, nor an environment reference that ends its
line together with the word the next line starts with. Each function below a statement stays before such a
barrier, whatever follows it.
-/

namespace Pulsate.Flow

open List Lib

/-- A line break before a word. -/
def LineEnd (rest : List Token) : Prop :=
  ∃ s a r, rest = s :: a :: r ∧ s.kind = .sep ∧ ∃ w, a.kind = .atom w

/-- The kinds that are no barrier. -/
def TokenKind.isPlain : TokenKind → Bool
  | .rBrace | .env _ => false
  | _ => true

def Barrier (t : Token) (rest : List Token) : Prop :=
  t.kind = .rBrace ∨ (∃ e, t.kind = .env e) ∧ LineEnd rest

namespace Parser

/-- The parser has the barrier `t` ahead of it, and before it only tokens of the kinds `P`. -/
def Before (P : TokenKind → Prop) (t : Token) (rest : List Token) (p : Parser) : Prop :=
  ∃ c, p.tokens = c ++ t :: rest ∧ Barrier t rest ∧ ∀ u ∈ c, P u.kind

/-- The parser has read the reference that ends the line. -/
def Passed (t : Token) (rest : List Token) (p : Parser) : Prop :=
  p.tokens = rest ∧ LineEnd rest ∧ ∃ e, t.kind = .env e

variable {P : TokenKind → Prop} {t : Token} {rest : List Token} {p q : Parser}

/-! ## Single tokens -/

theorem bump_tokens {u : Token} {ts : List Token} (h : p.tokens = u :: ts) (hne : ts ≠ []) : p.bump.tokens = ts := by
  rw [Parser.bump, h]
  cases ts with
  | nil => exact absurd rfl hne
  | cons v ts => rfl

theorem Before.peekKind (h : Before P t rest p) : P p.peekKind ∨ p.peekKind = .rBrace ∨ ∃ e, p.peekKind = .env e := by
  obtain ⟨c, ht, hb, hP⟩ := h
  cases c with
  | nil =>
    rw [peekKind_cons ht]
    exact .inr (hb.imp_right And.left)
  | cons u c =>
    rw [peekKind_cons ht]
    exact .inl (hP u mem_cons_self)

theorem Passed.peekKind (h : Passed t rest p) : p.peekKind = .sep := by
  obtain ⟨ht, ⟨s, a, r, rfl, hs, _⟩, -⟩ := h
  rw [peekKind_cons ht, hs]

theorem Before.bump (h : Before P t rest p) (hr : p.peekKind ≠ .rBrace) :
    Before P t rest p.bump ∨ Passed t rest p.bump := by
  obtain ⟨c, ht, hb, hP⟩ := h
  cases c with
  | nil =>
    rw [peekKind_cons ht] at hr
    obtain ⟨henv, hl⟩ := hb.resolve_left hr
    obtain ⟨s, a, r, rfl, _⟩ := id hl
    exact .inr ⟨bump_tokens ht (by simp), hl, henv⟩
  | cons u c => exact .inl ⟨c, bump_tokens ht (by simp), hb, fun v hv => hP v (mem_cons_of_mem _ hv)⟩

theorem Before.bump_plain (h : Before P t rest p) {k : TokenKind} (hk : p.peekKind = k) (hp : k.isPlain) :
    Before P t rest p.bump := by
  obtain ⟨c, ht, hb, hP⟩ := h
  cases c with
  | nil =>
    rw [peekKind_cons ht] at hk
    rcases hb with hb | ⟨⟨e, hb⟩, _⟩ <;> rw [← hk, hb] at hp <;> cases hp
  | cons u c => exact ⟨c, bump_tokens ht (by simp), hb, fun v hv => hP v (mem_cons_of_mem _ hv)⟩

theorem Before.skipSeps (h : Before P t rest p) : Before P t rest p.skipSeps := by
  obtain ⟨c, ht, hb, hP⟩ := h
  have hsep : (decide (t.kind = .sep)) = false := by
    rcases hb with hb | ⟨⟨e, hb⟩, _⟩ <;> simp [hb]
  have hskip : p.skipSeps.tokens = c.dropWhile (·.kind = .sep) ++ t :: rest := by
    rw [Parser.skipSeps, ht, dropWhile_append]
    cases hd : c.dropWhile (·.kind = .sep) with
    | nil => simp [hsep]
    | cons u c' => simp
  exact ⟨_, hskip, hb, fun u hu => hP u ((dropWhile_sublist _).subset hu)⟩

theorem Passed.skipSeps (h : Passed t rest p) : ∃ w, p.skipSeps.peekKind = .atom w := by
  obtain ⟨ht, ⟨s, a, r, rfl, hs, w, hw⟩, -⟩ := h
  have hskip : p.skipSeps.tokens = a :: r := by
    rw [Parser.skipSeps, ht, dropWhile_cons_of_pos (by simp [hs]),
      dropWhile_cons_of_neg (by simp [hw])]
  exact ⟨w, by rw [peekKind_cons hskip, hw]⟩

/-- What a list in brackets or parentheses leaves: it is before the barrier, or its next token is a word, and no list is closed
by a word. -/
def Inside (P : TokenKind → Prop) (t : Token) (rest : List Token) (p : Parser) : Prop :=
  Before P t rest p ∨ ∃ w, p.peekKind = .atom w

theorem Inside.close (h : Inside P t rest p) {k : TokenKind} (hk : p.peekKind = k) (hp : k.isPlain)
    (hw : ∀ w, k ≠ .atom w) : Before P t rest p.bump := by
  rcases h with h | ⟨w, h⟩
  · exact h.bump_plain hk hp
  · exact absurd (hk.symm.trans h) (hw w)

/-- The parser is before the barrier, or has read it as the last word of its line. -/
def Near (P : TokenKind → Prop) (t : Token) (rest : List Token) (p : Parser) : Prop := Before P t rest p ∨ Passed t rest p

theorem Near.inside (h : Near P t rest p) : Inside P t rest p.skipSeps := by
  rcases h with h | h
  · exact .inl h.skipSeps
  · exact .inr h.skipSeps

/-! ## Rules -/

/-- Where the parser is after a success. -/
def Leaves {α : Type} (res : Except Failure (α × Parser)) (Q : Parser → Prop) : Prop := ∀ x q, res = .ok (x, q) → Q q

namespace Leaves

variable {α β : Type} {res : Except Failure (α × Parser)} {Q R : Parser → Prop}

theorem ok {x : α} (h : Q p) : Leaves (.ok (x, p)) Q := by
  rintro x q ⟨⟩
  exact h

theorem error {e : Failure} : Leaves (.error e : Except Failure (α × Parser)) Q := by
  rintro x q ⟨⟩

theorem bind {k : α × Parser → Except Failure (β × Parser)} (h : Leaves res R) (hk : ∀ x q, R q → Leaves (k (x, q)) Q) :
    Leaves (res >>= k) Q := by
  intro y q hy
  obtain ⟨⟨x, r⟩, hres, hy⟩ := bind_eq_ok.mp hy
  exact hk x r (h x r hres) y q hy

theorem map {k : α × Parser → Except Failure (β × Parser)} (h : Leaves res Q) (hk : ∀ x q, ∃ y, k (x, q) = .ok (y, q)) :
    Leaves (res >>= k) Q :=
  h.bind fun x q hq => by
    obtain ⟨y, hy⟩ := hk x q
    rw [hy]
    exact ok hq

theorem more {x : α} {loop : Except Failure (List α × Parser)} (h : Near P t rest p)
    (hloop : Before P t rest p.skipSeps.bump → Leaves loop (Inside P t rest)) :
    Leaves (if p.skipSeps.peekKind = .comma then do
        let (xs, r) ← loop
        return (x :: xs, r)
      else .ok ([x], p.skipSeps)) (Inside P t rest) := by
  split
  · rename_i hk
    exact (hloop (h.inside.close hk rfl (by simp))).map fun xs q => ⟨_, rfl⟩
  · exact ok h.inside

end Leaves

/-! ## Values and arguments -/

theorem parseValueFuel_before (n : Nat) : (∀ p, Before P t rest p → Leaves (parseValueFuel n p) (Near P t rest)) ∧
    ∀ p, Before P t rest p → Leaves (parseItemsFuel n p) (Inside P t rest) := by
  induction n with
  | zero => exact ⟨fun _ _ => .error, fun _ _ => .error⟩
  | succ n ih =>
    constructor
    · intro p h
      rw [parseValueFuel]
      cases hk : p.peekKind with
      | str _ => exact .ok (h.bump (by simp [hk]))
      | env _ => exact .ok (h.bump (by simp [hk]))
      | atom _ => exact .ok (h.bump (by simp [hk]))
      | lBracket =>
        refine (ih.2 _ (h.bump_plain hk rfl)).bind ?_
        intro items q hq
        simp only
        split
        · rename_i hr
          exact .ok (.inl (hq.close hr rfl (by simp)))
        · exact .error
      | _ => exact .error
    · intro p h
      rw [parseItemsFuel]
      split
      · exact .ok (.inl h.skipSeps)
      · exact (ih.1 _ h.skipSeps).bind fun item q hq => .more hq (ih.2 _)

theorem parseValue_before (h : Before P t rest p) : Leaves (parseValue p) (Near P t rest) := (parseValueFuel_before _).1 p h

theorem parseArg_before (h : Before P t rest p) : Leaves (parseArg p) (Near P t rest) := by
  rw [parseArg]
  split
  · rename_i name hk hn
    rw [nextKind_eq_bump] at hn
    exact (parseValue_before ((h.bump_plain hk rfl).bump_plain hn rfl)).map fun v q => ⟨_, rfl⟩
  · exact (parseValue_before h).map fun v q => ⟨_, rfl⟩

theorem parseSpaceArgsFuel_before (n : Nat) (h : Before P t rest p) : Leaves (parseSpaceArgsFuel n p) (Near P t rest) := by
  induction n generalizing p with
  | zero => exact .error
  | succ n ih =>
    rw [parseSpaceArgsFuel]
    split
    · refine (parseArg_before h).bind ?_
      intro arg q hq
      refine Leaves.map ?_ fun args r => ⟨_, rfl⟩
      rcases hq with hq | hq
      · exact ih hq
      · -- the line is over, so there is no further argument
        cases n with
        | zero => exact .error
        | succ n =>
          have hstart : q.startsArg = false := by rw [startsArg, hq.peekKind]
          rw [parseSpaceArgsFuel, hstart]
          exact .ok (.inr hq)
    · exact .ok (.inl h)

/-! ## Routes -/

theorem parsePredicate_before {key w : Str} (h : Before P t rest p) (hk : p.peekKind = .atom w) :
    Leaves (parsePredicate key p) (Near P t rest) := by
  have hbump := h.bump_plain hk rfl
  rw [parsePredicate]
  split
  · rename_i he
    exact (parseValue_before (hbump.bump_plain he rfl)).map fun v q => ⟨_, rfl⟩
  · exact .ok (.inl hbump)

theorem parsePredicateListFuel_before (n : Nat) (h : Before P t rest p) :
    Leaves (parsePredicateListFuel n p) (Inside P t rest) := by
  induction n generalizing p with
  | zero => exact .error
  | succ n ih =>
    rw [parsePredicateListFuel]
    simp only
    split
    · exact .ok (.inl h.skipSeps)
    · rename_i hk
      exact (parsePredicate_before h.skipSeps hk).bind fun pred q hq => .more hq ih
    · exact .error

theorem parsePredicates_before (h : Before P t rest p) (hk : p.peekKind = .lBracket) :
    Leaves (parsePredicates p) (Before P t rest) := by
  rw [parsePredicates]
  refine (parsePredicateListFuel_before _ (h.bump_plain hk rfl)).bind ?_
  intro preds q hq
  simp only
  split
  · rename_i hr
    exact .ok (hq.close hr rfl (by simp))
  · exact .error

theorem parseMatchKind_before (h : Before P t rest p) : Before P t rest p.parseMatchKind.2 := by
  rw [parseMatchKind]
  split
  · rename_i hk
    exact h.bump_plain hk rfl
  · rename_i hk
    split
    · exact h.bump_plain hk rfl
    · exact h
  · exact h

theorem parseMatcher_before (h : Before P t rest p) : Leaves (parseMatcher p) (Before P t rest) := by
  have hsign := parseMatchKind_before h
  rw [parseMatcher]
  split
  · rename_i hk
    have hpattern := hsign.bump_plain hk rfl
    simp only
    split
    · rename_i hb
      exact (parsePredicates_before hpattern hb).map fun r q => ⟨_, rfl⟩
    · exact .ok hpattern
  · exact .error

theorem parseStepArgsFuel_before (n : Nat) (h : Before P t rest p) : Leaves (parseStepArgsFuel n p) (Inside P t rest) := by
  induction n generalizing p with
  | zero => exact .error
  | succ n ih =>
    rw [parseStepArgsFuel]
    split
    · exact .ok (.inl h.skipSeps)
    · exact (parseArg_before h.skipSeps).bind fun arg q hq => .more hq ih

theorem parseStep_before (h : Before P t rest p) : Leaves (parseStep p) (Before P t rest) := by
  rw [parseStep]
  split
  · rename_i hk
    have hname := h.bump_plain hk rfl
    simp only
    split
    · rename_i hl
      refine (parseStepArgsFuel_before _ (hname.bump_plain hl rfl)).bind ?_
      intro args q hq
      simp only
      split
      · rename_i hr
        exact .ok (hq.close hr rfl (by simp))
      · exact .error
    · exact .ok hname
  · exact .error

theorem parseStepsFuel_before (n : Nat) (h : Before P t rest p) : Leaves (parseStepsFuel n p) (Before P t rest) := by
  induction n generalizing p with
  | zero => exact .error
  | succ n ih =>
    rw [parseStepsFuel]
    split
    · rename_i hk
      refine (parseStep_before (h.skipSeps.bump_plain hk rfl).skipSeps).bind ?_
      exact fun step q hq => (ih hq).map fun _ _ => ⟨_, rfl⟩
    · exact .ok h.skipSeps

theorem parseRoute_before {w : Str} (h : Before P t rest p) (hk : p.peekKind = .atom w) :
    Leaves (parseRoute p) (Before P t rest) :=
  (parseMatcher_before (h.bump_plain hk rfl)).bind fun _ _ hq =>
    (parseStepsFuel_before _ hq).map fun _ _ => ⟨_, rfl⟩

/-! ## Statements -/

theorem Before.bump_cases (h : Before P t rest p) :
    Before P t rest p.bump ∨ p.bump.tokens = rest := by
  obtain ⟨c, ht, hb, hP⟩ := id h
  cases c with
  | nil =>
    cases rest with
    | nil =>
      -- the last token is never passed
      left
      have hbump : p.bump = p := by rw [Parser.bump, ht]; rfl
      rw [hbump]
      exact h
    | cons r rest => exact .inr (bump_tokens ht (by simp))
  | cons u c => exact .inl ⟨c, bump_tokens ht (by simp), hb, fun v hv => hP v (mem_cons_of_mem _ hv)⟩

/-- A block is still open where the rest starts. -/
def Crossed (rest : List Token) : Prop :=
  ∃ n r ss q, r.tokens = rest ∧ parseStmtsFuel n true r = .ok (ss, q)

/-- Statements up to a barrier: they end there or before it, or the rest is read as further statements of
the same block, or of a block inside it. -/
theorem parseStmtsFuel_before (n : Nat) :
    (∀ {b : Bool} {p q : Parser} {ss : List Stmt}, Before P t rest p → parseStmtsFuel n b p = .ok (ss, q) →
      (Before P t rest q ∨ q.tokens = rest) ∨ Crossed rest ∨
        ∃ m r s1 s2, ss = s1 ++ s2 ∧ r.tokens = rest ∧ parseStmtsFuel m b r = .ok (s2, q)) ∧
    ∀ {p q : Parser} {s : Stmt}, Before P t rest p → parseStmtFuel n p = .ok (s, q) →
      (Before P t rest q ∨ q.tokens = rest) ∨ Crossed rest := by
  induction n with
  | zero =>
    constructor
    · intro b p q ss _ h; cases h
    · intro p q s _ h; cases h
  | succ n ih =>
    constructor
    · intro b p q ss h hs
      have h1 := h.skipSeps
      simp only [parseStmtsFuel] at hs
      split at hs
      · split at hs
        · cases hs
        · cases hs; exact .inl (.inl h1)
      · rename_i hk
        split at hs
        · cases hs; exact .inl h1.bump_cases
        · cases hs
      · obtain ⟨⟨s, r⟩, hstmt, hs⟩ := bind_eq_ok.mp hs
        obtain ⟨⟨ss', r'⟩, hstmts, hs⟩ := bind_eq_ok.mp hs
        obtain ⟨rfl, rfl⟩ := Prod.mk.inj (Except.ok.inj hs)
        rcases ih.2 h1 hstmt with (hr | hr) | hr
        · rcases ih.1 hr hstmts with h2 | h2 | ⟨m, r2, s1, s2, h2, h3, h4⟩
          · exact .inl h2
          · exact .inr (.inl h2)
          · refine .inr (.inr ⟨m, r2, s :: s1, s2, ?_, h3, h4⟩)
            rw [cons_append, ← h2]
        · exact .inr (.inr ⟨n, r, [s], ss', rfl, hr, hstmts⟩)
        · exact .inr (.inl hr)
    · intro p q s h hs
      simp only [parseStmtFuel] at hs
      split at hs
      · rename_i kw hk
        split at hs
        · obtain ⟨⟨r, q'⟩, hr, hs⟩ := bind_eq_ok.mp hs
          cases hs
          exact .inl (.inl (parseRoute_before h hk _ _ hr))
        · obtain ⟨⟨args, q1⟩, ha, hs⟩ := bind_eq_ok.mp hs
          have h1 := parseSpaceArgsFuel_before _ (h.bump_plain hk rfl) _ _ ha
          simp only at hs
          split at hs
          · rename_i hl
            obtain ⟨⟨body, q2⟩, hb, hs⟩ := bind_eq_ok.mp hs
            cases hs
            rcases h1 with h1 | h1
            · rcases ih.1 (h1.bump_plain hl rfl) hb with h2 | h2 | ⟨m, r, s1, s2, _, h3, h4⟩
              · exact .inl h2
              · exact .inr h2
              · exact .inr ⟨m, r, s2, q2, h3, h4⟩
            · rw [h1.peekKind] at hl; cases hl
          · cases hs
            rcases h1 with h1 | h1
            · exact .inl (.inl h1)
            · exact .inl (.inr h1.1)
      · cases hs

end Parser

end Pulsate.Flow
