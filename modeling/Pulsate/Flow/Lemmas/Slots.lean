import Mathlib.Data.List.Infix
import Pulsate.Flow.Lemmas.Text

/-!
# Texts with slots

A template is a text with slots that any word may be put into. The rules here say exactly when the lexer reads such a
text as the tokens of the template, with a token of its own for every slot.
-/

namespace Pulsate.Flow

open List Option

/-! ## Words in slots -/

/-- A text that is one atom wherever it stands. -/
structure IsAtom (w : Str) : Prop where
  ne_nil : w ≠ []
  chars : ∀ c ∈ w, isAtomEnd c = false
  no_arrow : ¬ ['~', '>'] <:+: w

instance instDecidableIsAtom (w : Str) : Decidable (IsAtom w) :=
  decidable_of_iff (w ≠ [] ∧ w.all (fun c => decide (isAtomEnd c = false)) ∧ ¬ ['~', '>'] <:+: w)
    ⟨fun ⟨h1, h2, h3⟩ => ⟨h1, Str.forall_mem_of_all h2, h3⟩, fun ⟨h1, h2, h3⟩ => ⟨h1, Str.all_of_forall_mem h2, h3⟩⟩

/-- A text that a string literal holds to its end: no quote and no open escape in it. -/
def isQuotable : Str → Bool
  | [] => true
  | '"' :: _ => false
  | '\\' :: [] => false
  | '\\' :: c :: s => decide (c.toNat < 128) && isQuotable s
  | _ :: s => isQuotable s

/-- The value of a literal with this text. -/
def unescaped : Str → Str
  | [] => []
  | '\\' :: c :: s => Lexer.unescape c :: unescaped s
  | c :: s => c :: unescaped s

theorem gt_ne_of_isAtomEnd {d : Char} (hd : isAtomEnd d) : d ≠ '>' := by
  rintro rfl
  cases hd

theorem atomLen_isAtom {w : Str} (hc : ∀ c ∈ w, isAtomEnd c = false) (ha : ¬ ['~', '>'] <:+: w) {d : Char}
    (hd : isAtomEnd d) (s : Str) : atomLen id (w ++ d :: s) = w.length := by
  induction w with
  | nil => simp [atomLen, hd]
  | cons c w ih =>
    have hsmall : ¬ ['~', '>'] <:+: w := fun h => ha (infix_cons h)
    have hstop : ¬ (c = '~' ∧ (w ++ d :: s).head? = some '>') := by
      rintro ⟨rfl, hgt⟩
      cases w with
      | nil => exact gt_ne_of_isAtomEnd hd (Option.some.inj hgt)
      | cons e w =>
        cases hgt
        exact ha (List.IsPrefix.isInfix ⟨w, rfl⟩)
    rw [cons_append, Lexer.atomLen_cons (hc c mem_cons_self) hstop,
      ih (fun x hx => hc x (mem_cons_of_mem _ hx)) hsmall, length_cons]

theorem no_arrow_of_atomLen {w s : Str} (h : w.length ≤ atomLen id (w ++ s)) : ¬ ['~', '>'] <:+: w := by
  induction w with
  | nil => simp
  | cons c w ih =>
    rw [cons_append, atomLen] at h
    split at h
    · simp at h
    · rename_i hstop
      rw [infix_cons_iff]
      rintro (⟨t, ht⟩ | hin)
      · cases ht
        simp at hstop
      · exact ih (Nat.le_of_succ_le_succ h) hin

theorem kinds_isAtom {w : Str} (hw : IsAtom w) {d : Char} (hd : isAtomEnd d) (hb : d ≠ '{') (s : Str) :
    kinds (w ++ d :: s) = (kinds (d :: s)).map (.atom w :: ·) := by
  obtain ⟨hne, hchars, harrow⟩ := hw
  cases w with
  | nil => exact absurd rfl hne
  | cons c w =>
    obtain ⟨hh, hg, hs, hsing, hq⟩ := isAtomEnd_cases (hchars c mem_cons_self)
    have hlen := atomLen_isAtom (fun x hx => hchars x (mem_cons_of_mem _ hx))
      (fun h => harrow (infix_cons h)) hd s
    have htilde : ¬ (c = '~' ∧ (w ++ d :: s).head? = some '>') := by
      rintro ⟨rfl, hgt⟩
      cases w with
      | nil => exact gt_ne_of_isAtomEnd hd (Option.some.inj hgt)
      | cons e w =>
        cases hgt
        exact harrow (List.IsPrefix.isInfix ⟨w, rfl⟩)
    have hdollar : ¬ (c = '$' ∧ (w ++ d :: s).head? = some '{') := by
      rintro ⟨rfl, hbrace⟩
      cases w with
      | nil => exact hb (Option.some.inj hbrace)
      | cons e w =>
        cases hbrace
        cases hchars '{' (by simp)
    rw [cons_append, kinds_token hh hg hs, nextKind, hsing]
    dsimp only
    rw [if_neg htilde, if_neg hq, if_neg hdollar, hlen, take_left, drop_left]
    rfl

theorem kinds_atom_cases {u a : Str} {ks : List TokenKind} (h : kinds u = some (.atom a :: ks)) :
    ∃ c t, u.drop (skipHorizontalLen id u) = c :: t ∧ ¬ (c = '~' ∧ t.head? = some '>') ∧
      a = c :: t.take (atomLen id t) ∧ kinds (t.drop (atomLen id t)) = some ks ∧ ∀ x ∈ a, isAtomEnd x = false := by
  have hinner : (TokenKind.atom a).Inner := by
    obtain ⟨init, hi, hall⟩ := kinds_inner h
    cases init with
    | nil => cases hi
    | cons k init =>
      cases hi
      exact hall _ mem_cons_self
  rw [kinds_eq] at h
  split at h
  · cases h
  · rename_i c t hu
    refine ⟨c, t, hu, ?_⟩
    split at h
    · obtain ⟨ks', -, he⟩ := map_eq_some_iff.mp h
      cases he
    · obtain ⟨⟨k, r⟩, hk, h⟩ := bind_eq_some_iff.mp h
      obtain ⟨ks', hr, he⟩ := map_eq_some_iff.mp h
      cases he
      unfold nextKind at hk
      split at hk
      · rename_i kind hsing
        cases hk
        unfold Lexer.single at hsing
        split at hsing <;> cases hsing
      split at hk
      · cases hk
      rename_i htilde
      split at hk
      · obtain ⟨x, -, he⟩ := map_eq_some_iff.mp hk
        cases he
      split at hk
      · split at hk <;> cases hk
      · cases hk
        exact ⟨htilde, rfl, hr, hinner.2 _ rfl⟩

theorem kinds_atom_iff {w : Str} {d : Char} (hd : isAtomEnd d) (hb : d ≠ '{') (s : Str) (ks : List TokenKind) :
    kinds (w ++ d :: s) = some (.atom w :: ks) ↔ IsAtom w ∧ kinds (d :: s) = some ks := by
  constructor
  · intro h
    obtain ⟨c, t, hu, htilde, ha, hr, hchars⟩ := kinds_atom_cases h
    cases w with
    | nil => cases ha
    | cons e w =>
      -- the word itself starts the atom, so nothing is skipped before it
      obtain ⟨hh, hg, -, -, -⟩ := isAtomEnd_cases (hchars e mem_cons_self)
      have hskip : skipHorizontalLen id (e :: w ++ d :: s) = 0 := by simp [skipHorizontalLen, hh, hg]
      rw [hskip, drop_zero, cons_append] at hu
      obtain ⟨rfl, rfl⟩ := List.cons.inj hu
      have hw : w = (w ++ d :: s).take (atomLen id (w ++ d :: s)) := (List.cons.inj ha).2
      have hle : w.length ≤ atomLen id (w ++ d :: s) := by
        have := congrArg List.length hw
        rw [length_take] at this
        omega
      have hlen : atomLen id (w ++ d :: s) = w.length :=
        atomLen_isAtom (fun x hx => hchars x (mem_cons_of_mem _ hx)) (no_arrow_of_atomLen hle) hd s
      rw [hlen, drop_left] at hr
      refine ⟨⟨cons_ne_nil _ _, hchars, ?_⟩, hr⟩
      rw [infix_cons_iff]
      rintro (⟨r, hr⟩ | hin)
      · cases hr
        exact htilde ⟨rfl, rfl⟩
      · exact no_arrow_of_atomLen hle hin
  · rintro ⟨hw, hs⟩
    rw [kinds_isAtom hw hd hb, hs]
    rfl

theorem stringRest_iff {w : Str} (s : Str) (r : Str) :
    stringRest (w ++ '"' :: s) = some (unescaped w, r) ↔ isQuotable w ∧ r = s := by
  fun_induction isQuotable w with
  | case1 => simp [stringRest, unescaped, eq_comm]
  | case2 t => simp [stringRest, unescaped]
  | case3 =>
    simp only [cons_append, nil_append, stringRest, unescaped]
    simp [Lexer.unescape]
  | case4 c t ih =>
    simp only [cons_append, stringRest, unescaped]
    by_cases hc : c.toNat < 128
    · simp [hc, ← ih]
    · simp [hc]
  | case5 c t h1 h2 h3 ih =>
    have hc1 : c ≠ '"' := h1
    have hc2 : c ≠ '\\' := by
      rintro rfl
      cases t with
      | nil => exact h2 rfl rfl
      | cons e t => exact h3 e t rfl rfl
    have hun : unescaped (c :: t) = c :: unescaped t := by
      rw [unescaped]
      rintro e s rfl
      exact fun _ => hc2 rfl
    rw [cons_append, Lexer.stringRest_plain _ hc1 hc2, hun]
    simp [← ih]

/-! ## Templates -/

/-- Before a character that ends atoms, the piece is read as `ks` exactly if `P` holds of what its slots hold. -/
def Slotted (u : Str) (ks : List TokenKind) (P : Prop) : Prop :=
  ∀ d s ts, isAtomEnd d → d ≠ '{' → (kinds (u ++ d :: s) = some (ks ++ ts) ↔ P ∧ kinds (d :: s) = some ts)

theorem map_cons_eq_some {k : TokenKind} {ks : List TokenKind} {x : Option (List TokenKind)} :
    x.map (k :: ·) = some (k :: ks) ↔ x = some ks := by
  cases x <;> simp

namespace Slotted

variable {u v w : Str} {ks ks' : List TokenKind} {P Q : Prop} {d : Char} {k : TokenKind}

theorem imp_iff (h : Slotted u ks P) (hpq : P ↔ Q) : Slotted u ks Q := by
  rwa [← propext hpq]

theorem nil : Slotted [] [] True := fun _ _ _ _ _ => by simp

theorem of_lexes (h : Lexes u ks) : Slotted u ks True := by
  intro d s ts hd _
  rw [h d s hd, map_eq_some_iff]
  constructor
  · rintro ⟨x, hx, he⟩
    exact ⟨trivial, hx.trans (congrArg some (append_cancel_left he))⟩
  · rintro ⟨-, hs⟩
    exact ⟨ts, hs, rfl⟩

theorem atom (w : Str) : Slotted w [.atom w] (IsAtom w) := fun _ s ts hd hb => kinds_atom_iff hd hb s ts

theorem append (hu : Slotted u ks P) (hd : isAtomEnd d) (hb : d ≠ '{') (hv : Slotted (d :: v) ks' Q) :
    Slotted (u ++ d :: v) (ks ++ ks') (P ∧ Q) := by
  intro e s ts he heb
  rw [append_assoc, append_assoc, cons_append, hu d _ _ hd hb, ← cons_append, hv e s ts he heb, and_assoc]

theorem space (hv : Slotted v ks P) : Slotted (' ' :: v) ks P := by
  intro e s ts he hb
  rw [cons_append, kinds_horizontal rfl]
  exact hv e s ts he hb

theorem single (hd : Lexer.single d = some k) (hv : Slotted v ks P) : Slotted (d :: v) (k :: ks) P := by
  intro e s ts he hb
  rw [cons_append, kinds_single hd, cons_append, map_cons_eq_some]
  exact hv e s ts he hb

theorem arrow (hv : Slotted v ks P) : Slotted ('~' :: '>' :: v) (.arrow :: ks) P := by
  intro e s ts he hb
  rw [cons_append, cons_append, kinds_arrow, cons_append, map_cons_eq_some]
  exact hv e s ts he hb

theorem quoted (w : Str) (hv : Slotted v ks P) :
    Slotted ('"' :: (w ++ '"' :: v)) (.str (unescaped w) :: ks) (isQuotable w ∧ P) := by
  intro e s ts he hb
  have hnext : ∀ t, nextKind '"' t = (stringRest t).map (fun r => (.str r.1, r.2)) := fun t => rfl
  rw [cons_append, append_assoc, cons_append, kinds_token rfl (by decide) rfl, hnext, cons_append]
  constructor
  · intro h
    obtain ⟨kr, hk, h⟩ := bind_eq_some_iff.mp h
    obtain ⟨⟨x, r⟩, hs, rfl⟩ := map_eq_some_iff.mp hk
    obtain ⟨ks', hr, hks⟩ := map_eq_some_iff.mp h
    obtain ⟨hx, rfl⟩ := List.cons.inj hks
    obtain rfl : x = unescaped w := by simpa using hx
    obtain ⟨hw, rfl⟩ := (stringRest_iff _ _).mp hs
    obtain ⟨hP, hts⟩ := (hv e s ts he hb).mp hr
    exact ⟨⟨hw, hP⟩, hts⟩
  · rintro ⟨⟨hw, hP⟩, hts⟩
    rw [(stringRest_iff _ _).mpr ⟨hw, rfl⟩]
    dsimp only [map_some, bind_some]
    rw [(hv e s ts he hb).mpr ⟨hP, hts⟩]
    rfl

theorem newline {ws : Str} (hw : ∀ c ∈ ws, isBlank c) (hs : Starts v) (hne : v ≠ []) (hv : Slotted v ks P) :
    Slotted ('\n' :: (ws ++ v)) (.sep :: ks) P := by
  intro e s ts he hb
  have hs' : Starts (v ++ e :: s) := by
    cases v with
    | nil => exact absurd rfl hne
    | cons c v => exact hs
  rw [cons_append, append_assoc, kinds_break hw hs', cons_append, map_cons_eq_some]
  exact hv e s ts he hb

theorem words {ws : List Str} (hd : isAtomEnd d) (hb : d ≠ '{') (hv : Slotted (d :: v) ks P) :
    Slotted (ws.flatMap (fun w => ' ' :: w) ++ d :: v) (ws.map .atom ++ ks) ((∀ w ∈ ws, IsAtom w) ∧ P) := by
  induction ws with
  | nil => exact hv.imp_iff (by simp)
  | cons w ws ih =>
    rw [flatMap_cons, cons_append, cons_append, map_cons, append_assoc]
    obtain ⟨e, t, hrest, he, heb⟩ : ∃ e t, ws.flatMap (fun w => ' ' :: w) ++ d :: v = e :: t ∧ isAtomEnd e ∧
        e ≠ '{' := by
      cases ws with
      | nil => exact ⟨d, v, rfl, hd, hb⟩
      | cons x ws => exact ⟨' ', _, rfl, rfl, by decide⟩
    rw [hrest] at ih ⊢
    refine (((atom w).append he heb ih).space).imp_iff ?_
    rw [forall_mem_cons, and_assoc]

end Slotted

end Pulsate.Flow
