import Pulsate.Flow.Lemmas.Utf8
import Pulsate.Flow.Reading

/-!
# What the lexer reads

`kinds` reads the token kinds off the characters of a text, with neither bytes nor positions. The lexer
returns tokens of exactly these kinds, and fails exactly where `kinds` has no answer.
-/

namespace Pulsate.Flow

open List Option Str

variable {s r pre : Str} {c a : Char} {k : TokenKind} {lx : Lexer} {fuel : Nat}

/-! ## Token kinds of a text -/

/-- The value of a string literal and what follows it; the opening quote is read. -/
def stringRest : Str → Option (Str × Str)
  | [] => none
  | '"' :: s => some ([], s)
  | '\\' :: [] => none
  | '\\' :: c :: s =>
    -- the lexer cuts a character of several bytes in two here and panics
    if c.toNat < 128 then (stringRest s).map (fun r => (Lexer.unescape c :: r.1, r.2)) else none
  | c :: s => (stringRest s).map (fun r => (c :: r.1, r.2))

/-- The kind of the token that starts with `c` before `s`, and what follows it. -/
def nextKind (c : Char) (s : Str) : Option (TokenKind × Str) :=
  match Lexer.single c with
  | some kind => some (kind, s)
  | none =>
    if c = '~' ∧ s.head? = some '>' then some (.arrow, s.tail)
    else if c = '"' then (stringRest s).map (fun r => (.str r.1, r.2))
    else if c = '$' ∧ s.head? = some '{' then
      match s.tail.dropWhile (· ≠ '}') with
      | [] => none
      | _ :: rest => some (.env (s.tail.takeWhile (· ≠ '}')), rest)
    else some (.atom (c :: s.take (atomLen id s)), s.drop (atomLen id s))

theorem stringRest_suffix {v : Str} (h : stringRest s = some (v, r)) : ∃ body, body ≠ [] ∧ s = body ++ r := by
  fun_induction stringRest s generalizing v with
  | case1 => cases h
  | case2 s =>
    cases h
    exact ⟨['"'], by simp, rfl⟩
  | case3 => cases h
  | case4 c s hc ih =>
    obtain ⟨⟨v', r'⟩, hrest, he⟩ := map_eq_some_iff.mp h
    cases he
    obtain ⟨body, -, rfl⟩ := ih hrest
    exact ⟨'\\' :: c :: body, by simp, rfl⟩
  | case5 => cases h
  | case6 c s _ _ _ ih =>
    obtain ⟨⟨v', r'⟩, hrest, he⟩ := map_eq_some_iff.mp h
    cases he
    obtain ⟨body, -, rfl⟩ := ih hrest
    exact ⟨c :: body, by simp, rfl⟩

theorem notMem_takeWhile_ne (a : Char) (s : Str) : a ∉ s.takeWhile (· ≠ a) := by
  intro h
  simpa using mem_takeWhile_imp h

/-- Which token starts with `c`, case by case. -/
theorem nextKind_cases (h : nextKind c s = some (k, r)) :
    (Lexer.single c = some k ∧ r = s) ∨
    (c = '~' ∧ s = '>' :: r ∧ k = .arrow) ∨
    (c = '"' ∧ ∃ v, stringRest s = some (v, r) ∧ k = .str v) ∨
    (c = '$' ∧ ∃ v, s = '{' :: (v ++ '}' :: r) ∧ '}' ∉ v ∧ k = .env v) ∨
    (Lexer.single c = none ∧ ¬ (c = '~' ∧ s.head? = some '>') ∧ c ≠ '"' ∧ ¬ (c = '$' ∧ s.head? = some '{') ∧
      r = s.drop (atomLen id s) ∧ k = .atom (c :: s.take (atomLen id s))) := by
  unfold nextKind at h
  split at h
  · rename_i k' hk
    cases h
    exact .inl ⟨hk, rfl⟩
  rename_i hk
  split at h
  · rename_i h1
    obtain ⟨t, rfl⟩ := head?_eq_some_iff.mp h1.2
    cases h
    exact .inr (.inl ⟨h1.1, rfl, rfl⟩)
  rename_i h1
  split at h
  · rename_i h2
    obtain ⟨⟨v, r'⟩, hv, he⟩ := map_eq_some_iff.mp h
    cases he
    exact .inr (.inr (.inl ⟨h2, v, hv, rfl⟩))
  rename_i h2
  split at h
  · rename_i h3
    obtain ⟨t, rfl⟩ := head?_eq_some_iff.mp h3.2
    split at h
    · cases h
    · rename_i d rest hd
      cases h
      have hsplit := takeWhile_append_dropWhile (p := fun c => decide (c ≠ '}')) (l := t)
      rw [tail_cons] at hd
      obtain rfl : d = '}' := by
        have := head?_dropWhile_not (fun c : Char => decide (c ≠ '}')) t
        rw [hd] at this
        simpa using this
      rw [hd] at hsplit
      exact .inr (.inr (.inr (.inl ⟨h3.1, _, congrArg ('{' :: ·) hsplit.symm, notMem_takeWhile_ne _ _, rfl⟩)))
  · rename_i h3
    cases h
    exact .inr (.inr (.inr (.inr ⟨hk, h1, h2, h3, rfl, rfl⟩)))

theorem nextKind_none (h : nextKind c s = none) : (c = '"' ∧ stringRest s = none) ∨ (c = '$' ∧ ∃ t, s = '{' :: t ∧ '}' ∉ t) := by
  unfold nextKind at h
  split at h
  · cases h
  split at h
  · cases h
  split at h
  · rename_i h2
    exact .inl ⟨h2, map_eq_none_iff.mp h⟩
  split at h
  · rename_i h3
    obtain ⟨t, rfl⟩ := head?_eq_some_iff.mp h3.2
    split at h
    · rename_i hd
      rw [tail_cons, dropWhile_eq_nil_iff] at hd
      exact .inr ⟨h3.1, t, rfl, fun hm => by simpa using hd _ hm⟩
    · cases h
  · cases h

theorem nextKind_suffix (h : nextKind c s = some (k, r)) : ∃ body, body ≠ [] ∧ c :: s = body ++ r := by
  rcases nextKind_cases h with ⟨-, rfl⟩ | ⟨-, rfl, -⟩ | ⟨-, v, hv, -⟩ | ⟨-, v, rfl, -, -⟩ | ⟨-, -, -, -, rfl, -⟩
  · exact ⟨[c], by simp, rfl⟩
  · exact ⟨[c, '>'], by simp, rfl⟩
  · obtain ⟨body, -, rfl⟩ := stringRest_suffix hv
    exact ⟨c :: body, by simp, rfl⟩
  · exact ⟨c :: '{' :: (v ++ ['}']), by simp, by simp⟩
  · exact ⟨c :: s.take (atomLen id s), by simp, by simp⟩

theorem nextKind_length (h : nextKind c s = some (k, r)) : r.length < (c :: s).length := by
  obtain ⟨body, hne, hs⟩ := nextKind_suffix h
  have := length_pos_iff.mpr hne
  rw [hs, length_append]
  omega

theorem separatorRunLen_pos (h : isSeparator c) : separatorRunLen id false (c :: s) = separatorRunLen id false s + 1 := by
  simp [separatorRunLen, h]

/-- The kinds of the tokens of a text, if it lexes. -/
def kinds (s : Str) : Option (List TokenKind) :=
  match _hs : s.drop (skipHorizontalLen id s) with
  | [] => some [.eof]
  | c :: t =>
    if isSeparator c then
      (kinds (t.drop (separatorRunLen id false t))).map (.sep :: ·)
    else
      match _hk : nextKind c t with
      | none => none
      | some (k, r) => (kinds r).map (k :: ·)
termination_by s.length
decreasing_by
  · have := congrArg List.length _hs
    simp only [length_drop, length_cons] at this ⊢
    omega
  · have h1 := congrArg List.length _hs
    have h2 := nextKind_length _hk
    simp only [length_drop, length_cons] at h1 h2 ⊢
    omega

theorem kinds_eq (s : Str) :
    kinds s =
      match s.drop (skipHorizontalLen id s) with
      | [] => some [.eof]
      | c :: t =>
        if isSeparator c then (kinds (t.drop (separatorRunLen id false t))).map (.sep :: ·)
        else (nextKind c t).bind (fun kr => (kinds kr.2).map (kr.1 :: ·)) := by
  rw [kinds]
  split
  · rename_i h; rw [h]
  · rename_i c t h
    rw [h]
    split
    · rename_i hc; simp only [if_pos hc]
    · rename_i hc
      simp only [if_neg hc]
      split
      · rename_i hk; rw [hk]; rfl
      · rename_i hk; rw [hk]; rfl

theorem drop_takeWhile {α : Type} (p : α → Bool) (l : List α) :
    l.drop (l.takeWhile p).length = l.dropWhile p := by
  induction l with
  | nil => rfl
  | cons a l ih =>
    by_cases h : p a
    · simp [h, ih]
    · simp [h]

theorem dropWhile_ne_cons {b : Char} {l t : List Char} (h : l.dropWhile (· ≠ a) = b :: t) : b = a := by
  have := head?_dropWhile_not (fun c : Char => decide (c ≠ a)) l
  rw [h] at this
  simpa using this

/-! ## Places -/

def lineOf (pre : Str) : UInt32 := UInt32.ofNat (1 + pre.count '\n')

def colOf (pre : Str) : UInt32 := UInt32.ofNat (1 + (Str.bytes (lastLine pre)).length)

/-- The span that the lexer gives to `body` behind `pre`. -/
def spanAt (pre body : Str) : Span := ⟨(Str.bytes pre).length, (Str.bytes body).length, lineOf pre, colOf pre⟩

theorem lastLine_concat (pre : Str) (c : Char) : lastLine (pre ++ [c]) = if c = '\n' then [] else lastLine pre ++ [c] := by
  rw [lastLine, lastLine, rtakeWhile_concat]
  by_cases h : c = '\n' <;> simp [h]

theorem lineOf_concat (pre : Str) (c : Char) : lineOf (pre ++ [c]) = if c = '\n' then lineOf pre + 1 else lineOf pre := by
  rw [lineOf, lineOf, count_append]
  by_cases h : c = '\n'
  · simp [h, ← Nat.add_assoc]
  · simp [h]

theorem colOf_concat (pre : Str) (c : Char) :
    colOf (pre ++ [c]) = if c = '\n' then 1 else colOf pre + UInt32.ofNat c.utf8Size := by
  rw [colOf, colOf, lastLine_concat]
  by_cases h : c = '\n'
  · simp [h]
  · simp [h, ← Nat.add_assoc]

/-! ## Lexer states at a character -/

/-- The lexer is at a character boundary, behind `pre` and before `s`. -/
structure Lexer.At (lx : Lexer) (pre s : Str) : Prop where
  text : lx.text = pre ++ s
  bytes : lx.bytes = Str.bytes s
  pos : lx.pos = (Str.bytes pre).length
  line : lx.line = lineOf pre
  col : lx.col = colOf pre

namespace Lexer

theorem new_at (text : Str) : (new text).At [] text := ⟨rfl, rfl, rfl, rfl, rfl⟩

@[simp] theorem bump_text (lx : Lexer) : lx.bump.text = lx.text := by
  unfold bump; split
  · rfl
  · split <;> rfl

theorem bump_bytes (lx : Lexer) : lx.bump.bytes = lx.bytes.drop 1 := by
  unfold bump; split
  · rename_i h; simp [h]
  · rename_i h; split <;> simp [h]

theorem bump_pos (h : lx.bytes ≠ []) : lx.bump.pos = lx.pos + 1 := by
  unfold bump; split
  · contradiction
  · split <;> rfl

@[simp] theorem bumps_text (lx : Lexer) (n : Nat) : (lx.bumps n).text = lx.text := by
  induction n generalizing lx with
  | zero => rfl
  | succ n ih => rw [bumps, ih, bump_text]

theorem bumps_bytes (lx : Lexer) (n : Nat) : (lx.bumps n).bytes = lx.bytes.drop n := by
  induction n generalizing lx with
  | zero => rfl
  | succ n ih => rw [bumps, ih, bump_bytes, drop_drop, Nat.add_comm]

theorem bumps_pos {n : Nat} (h : n ≤ lx.bytes.length) : (lx.bumps n).pos = lx.pos + n := by
  induction n generalizing lx with
  | zero => rfl
  | succ n ih =>
    have hne : lx.bytes ≠ [] := by rintro h0; simp [h0] at h
    have hlen : n ≤ lx.bump.bytes.length := by rw [bump_bytes, length_drop]; omega
    rw [bumps, ih hlen, bump_pos hne]
    omega

theorem bumps_add (lx : Lexer) (m n : Nat) : (lx.bumps m).bumps n = lx.bumps (m + n) := by
  induction m generalizing lx with
  | zero => rw [Nat.zero_add]; rfl
  | succ m ih => rw [bumps, ih, Nat.succ_add, bumps]

/-- Bytes that end no line move the column only. -/
theorem bumps_line_col {bs rest : List UInt8} (h : lx.bytes = bs ++ rest) (hbs : ∀ b ∈ bs, Char.ofUInt8 b ≠ '\n') :
    (lx.bumps bs.length).line = lx.line ∧ (lx.bumps bs.length).col = lx.col + UInt32.ofNat bs.length := by
  induction bs generalizing lx with
  | nil => exact ⟨rfl, (UInt32.add_zero _).symm⟩
  | cons b bs ih =>
    rw [cons_append] at h
    have hb := hbs b mem_cons_self
    have hbump : lx.bump.line = lx.line ∧ lx.bump.col = lx.col + 1 := by
      simp [bump, h, hb]
    have hbytes : lx.bump.bytes = bs ++ rest := by
      rw [bump_bytes, h]
      rfl
    obtain ⟨hline, hcol⟩ := ih hbytes (fun x hx => hbs x (mem_cons_of_mem _ hx))
    refine ⟨hline.trans hbump.1, ?_⟩
    rw [length_cons, bumps, hcol, hbump.2, UInt32.ofNat_add, UInt32.add_assoc, UInt32.add_comm 1]
    rfl

theorem At.line_col_char (h : lx.At pre (c :: s)) :
    (lx.bumps c.utf8Size).line = lineOf (pre ++ [c]) ∧ (lx.bumps c.utf8Size).col = colOf (pre ++ [c]) := by
  have hbytes : lx.bytes = String.utf8EncodeChar c ++ Str.bytes s := h.bytes.trans (bytes_cons c s)
  rw [lineOf_concat, colOf_concat, ← h.line, ← h.col]
  by_cases hc : c = '\n'
  · subst hc
    obtain ⟨b, hb, hbc⟩ := utf8EncodeChar_ascii (c := '\n') (by decide)
    rw [hb] at hbytes
    simp [Lexer.bumps, bump, hbytes, hbc, Char.utf8Size]
  · have hmove := bumps_line_col hbytes (ofUInt8_ne (by decide) hc)
    rw [utf8EncodeChar_length] at hmove
    simpa [hc] using hmove

theorem At.bumps_char (h : lx.At pre (c :: s)) : (lx.bumps c.utf8Size).At (pre ++ [c]) s := by
  have hbytes : lx.bytes = String.utf8EncodeChar c ++ Str.bytes s := h.bytes.trans (bytes_cons c s)
  have hlen : c.utf8Size ≤ lx.bytes.length := by
    rw [hbytes, length_append, utf8EncodeChar_length]
    omega
  refine ⟨by simp [h.text], ?_, ?_, h.line_col_char.1, h.line_col_char.2⟩
  · rw [bumps_bytes, hbytes, ← utf8EncodeChar_length, drop_left]
  · rw [bumps_pos hlen, h.pos, bytes_append, length_append]
    simp

/-- Passing the bytes of `u` leaves the lexer at what follows `u`. -/
theorem At.bumps {u : Str} (h : lx.At pre (u ++ s)) : (lx.bumps (Str.bytes u).length).At (pre ++ u) s := by
  induction u generalizing lx pre with
  | nil => rwa [append_nil]
  | cons c u ih =>
    have := ih h.bumps_char
    rw [bumps_add, append_assoc] at this
    rwa [bytes_cons, length_append, utf8EncodeChar_length]

theorem At.bumps_take (h : lx.At pre s) (n : Nat) : (lx.bumps (Str.bytes (s.take n)).length).At (pre ++ s.take n) (s.drop n) :=
  At.bumps (u := s.take n) (by rwa [take_append_drop])

theorem At.bump_ascii (h : lx.At pre (c :: s)) (hc : c.toNat < 128) : lx.bump.At (pre ++ [c]) s := by
  obtain ⟨b, hb, _⟩ := utf8EncodeChar_ascii hc
  have := At.bumps (u := [c]) h
  simpa [hb, Lexer.bumps] using this

theorem At.spanFrom {lx' : Lexer} {body : Str} (h : lx.At pre s) (h' : lx'.At (pre ++ body) r) :
    lx.spanFrom lx' = spanAt pre body := by
  rw [Lexer.spanFrom, h.pos, h'.pos, h.line, h.col, bytes_append, length_append, Nat.add_sub_cancel_left, spanAt]

theorem At.peek_none (h : lx.At pre s) : lx.peek = none ↔ s = [] := by
  have hb := h.bytes
  cases s with
  | nil => simp [peek, hb]
  | cons c s =>
    obtain ⟨b, bs, he, _⟩ := utf8EncodeChar_lead c
    simp [peek, hb, he]

theorem At.peek_ascii (h : lx.At pre s) (ha : a.toNat < 128) : lx.peek = some a ↔ s.head? = some a := by
  have hb := h.bytes
  rw [peek, hb]
  exact Str.head_bytes ha

/-- The byte seen at a character: the character itself, or some byte above ASCII. -/
theorem At.peek_cons (h : lx.At pre (c :: s)) :
    (c.toNat < 128 ∧ lx.peek = some c) ∨
      (128 ≤ c.toNat ∧ ∃ b, lx.peek = some b ∧ 128 ≤ b.toNat) := by
  by_cases hc : c.toNat < 128
  · exact .inl ⟨hc, (h.peek_ascii hc).mpr rfl⟩
  · have hb := h.bytes
    obtain ⟨b, bs, he, _⟩ := utf8EncodeChar_lead c
    refine .inr ⟨by omega, Char.ofUInt8 b, by simp [peek, hb, he], ?_⟩
    exact utf8EncodeChar_high (c := c) (by omega) b (by simp [he])

theorem At.peek2_ascii (h : lx.At pre (c :: s)) (hc : c.toNat < 128) (ha : a.toNat < 128) : lx.peek2 = some a ↔ s.head? = some a := by
  have hb := h.bytes
  obtain ⟨b, he, _⟩ := utf8EncodeChar_ascii hc
  rw [peek2, hb, bytes_cons, he]
  exact Str.head_bytes ha

/-! ## Slices -/

theorem length_bytes_cons (c : Char) (u : Str) : ∃ n, (Str.bytes (c :: u)).length = n + 1 ∧ c.utf8Size ≤ n + 1 ∧
    n + 1 - c.utf8Size = (Str.bytes u).length := by
  have hpos := c.utf8Size_pos
  refine ⟨c.utf8Size + (Str.bytes u).length - 1, ?_, by omega, by omega⟩
  rw [bytes_cons, length_append, utf8EncodeChar_length]
  omega

theorem dropBytes_append (u s : Str) : (u ++ s : Str).dropBytes (Str.bytes u).length = some s := by
  induction u with
  | nil => cases s <;> rfl
  | cons c u ih =>
    obtain ⟨n, hlen, hle, hsub⟩ := length_bytes_cons c u
    rw [hlen, cons_append, Str.dropBytes, if_pos hle, hsub, ih]

theorem takeBytes_append (u s : Str) : (u ++ s : Str).takeBytes (Str.bytes u).length = some u := by
  induction u with
  | nil => cases s <;> rfl
  | cons c u ih =>
    obtain ⟨n, hlen, hle, hsub⟩ := length_bytes_cons c u
    rw [hlen, cons_append, Str.takeBytes, if_pos hle, hsub, ih]
    rfl

theorem slice_append (pre u s : Str) :
    (pre ++ (u ++ s) : Str).slice (Str.bytes pre).length ((Str.bytes pre).length + (Str.bytes u).length) = some u := by
  rw [Str.slice, dropBytes_append, bind_some, Nat.add_sub_cancel_left, takeBytes_append]

/-- The text between a state and the one after the bytes of `u`. -/
theorem At.slice {u : Str} (h : lx.At pre (u ++ s)) : lx.text.slice lx.pos (lx.bumps (Str.bytes u).length).pos = some u := by
  have hlen : (Str.bytes u).length ≤ lx.bytes.length := by rw [h.bytes, bytes_append, length_append]; omega
  rw [bumps_pos hlen, h.text, h.pos, slice_append]

theorem dropBytes_inside {k : Nat} (h0 : 0 < k) (hk : k < c.utf8Size) :
    (pre ++ c :: s : Str).dropBytes ((Str.bytes pre).length + k) = none := by
  induction pre with
  | nil =>
    obtain ⟨k, rfl⟩ := Nat.exists_eq_succ_of_ne_zero (Nat.pos_iff_ne_zero.mp h0)
    simp only [bytes_nil, length_nil, Nat.zero_add, nil_append, Str.dropBytes]
    rw [if_neg (by omega)]
  | cons d pre ih =>
    have hpos := d.utf8Size_pos
    have hlen : (Str.bytes (d :: pre)).length + k = (d.utf8Size + (Str.bytes pre).length + k - 1) + 1 := by
      rw [bytes_cons, length_append, utf8EncodeChar_length]; omega
    rw [hlen, cons_append, Str.dropBytes, if_pos (by omega)]
    have : d.utf8Size + (Str.bytes pre).length + k - 1 + 1 - d.utf8Size = (Str.bytes pre).length + k := by omega
    rw [this, ih]

/-! ## String literals -/

theorem takeWhile_continuation (s : Str) {bs : List UInt8}
    (hc : ∀ x ∈ bs, isContinuation x) :
    ((bs ++ Str.bytes s).takeWhile isContinuation) = bs := by
  rw [takeWhile_append_of_pos hc]
  cases s with
  | nil => simp
  | cons d s =>
    obtain ⟨b', bs', he', hb', _⟩ := utf8EncodeChar_lead d
    simp [he', hb']

theorem one_lt_utf8Size (h : 128 ≤ c.toNat) : 1 < c.utf8Size := by
  have hne : c.utf8Size ≠ 1 := by
    intro h1
    have hle : c.val.toNat ≤ 127 := UInt32.le_iff_toNat_le.mp (Char.utf8Size_eq_one_iff.mp h1)
    exact absurd h (Nat.not_le.mpr (Nat.lt_succ_of_le hle))
  have := c.utf8Size_pos
  omega

theorem stringBody_inside (start : Lexer) (value : Str) (h : lx.At pre (c :: s)) (hc : 128 ≤ c.toNat) :
    stringBody start (fuel + 1) lx.bump value = .error .panic := by
  obtain ⟨b, bs, he, _, hcont⟩ := utf8EncodeChar_lead c
  have hsize := one_lt_utf8Size hc
  have hlen := utf8EncodeChar_length c
  have hhigh := utf8EncodeChar_high hc
  cases bs with
  | nil => simp [he] at hlen; omega
  | cons b' bs =>
    have hb' := hhigh b' (by simp [he])
    have hbytes : lx.bytes = b :: b' :: (bs ++ Str.bytes s) := by simp [h.bytes, he]
    have hpos : lx.bump.pos = (Str.bytes pre).length + 1 := by
      rw [bump_pos (by simp [hbytes]), h.pos]
    have hcut : Str.slice lx.bump.text lx.bump.pos (lx.bump.bumps
        (1 + ((bs ++ Str.bytes s).takeWhile isContinuation).length)).pos = none := by
      rw [Str.slice, bump_text, h.text, hpos, dropBytes_inside (by omega) hsize]
      rfl
    simp only [stringBody, bump_bytes, hbytes, drop_succ_cons, drop_zero]
    rw [if_neg (ne_of_high hb' (by decide)), if_neg (ne_of_high hb' (by decide))]
    simp only [hcut]

theorem stringRest_plain (s : Str) (hq : c ≠ '"') (hs : c ≠ '\\') :
    stringRest (c :: s) = (stringRest s).map (fun r => (c :: r.1, r.2)) := by
  rw [stringRest]
  · exact hq
  · intro h; exact absurd h hs
  · intro _ _ h; exact absurd h hs

/-- A backslash in the literal stands before a character of several bytes; the opening quote is read. -/
def cutsInto : Str → Bool
  | [] => false
  | '"' :: _ => false
  | '\\' :: [] => false
  | '\\' :: c :: s => if c.toNat < 128 then cutsInto s else true
  | _ :: s => cutsInto s

theorem cutsInto_plain (s : Str) (hq : c ≠ '"') (hs : c ≠ '\\') : cutsInto (c :: s) = cutsInto s := by
  rw [cutsInto]
  · exact hq
  · intro h; exact absurd h hs
  · intro _ _ h; exact absurd h hs

/-- The span from a state to the end of the text. -/
def spanToEnd (lx : Lexer) : Span := ⟨lx.pos, (Str.bytes lx.text).length - lx.pos, lx.line, lx.col⟩

theorem At.spanToEnd (h : lx.At pre s) : lx.spanToEnd = spanAt pre s := by
  rw [Lexer.spanToEnd, h.text, h.pos, h.line, h.col, bytes_append, length_append, Nat.add_sub_cancel_left, spanAt]

def unterminatedString (span : Span) : Failure :=
  .diag ((Diagnostic.error .cfgSyntax "unterminated string literal" span).withHelp "add a closing `\"`")

theorem stringBody_reads {start : Lexer} (value : Str) (h : lx.At pre s) (ht : lx.text = start.text)
    (hf : lx.bytes.length < fuel) :
    match stringRest s with
    | some (v, r) => ∃ body lx', s = body ++ r ∧ lx'.At (pre ++ body) r ∧
        stringBody start fuel lx value = .ok (⟨.str (value ++ v), start.spanFrom lx'⟩, lx')
    | none => stringBody start fuel lx value =
        .error (if cutsInto s then .panic else unterminatedString start.spanToEnd) := by
  induction fuel generalizing lx pre s value with
  | zero => omega
  | succ fuel ih =>
    have hlt : ∀ {n}, 0 < n → 0 < lx.bytes.length → (lx.bumps n).bytes.length < fuel := by
      intro n hn hl
      rw [bumps_bytes, length_drop]
      omega
    cases s with
    | nil =>
      have hend : start.spanFrom lx = start.spanToEnd := by
        rw [spanFrom, spanToEnd, h.pos, ← ht, h.text, append_nil]
      simp [stringBody, h.bytes, stringRest, cutsInto, hend, unterminatedString]
    | cons c s =>
      obtain ⟨b, bs, he, hlead, hcont⟩ := utf8EncodeChar_lead c
      have hb' : lx.bytes = b :: (bs ++ Str.bytes s) := by rw [h.bytes, bytes_cons, he]; rfl
      have hpos : 0 < lx.bytes.length := by rw [hb']; simp
      have hpeek := h.peek_cons
      simp only [peek, hb', head?_cons, map_some, Option.some.injEq, exists_eq_left'] at hpeek
      simp only [stringBody, hb']
      by_cases hq : c = '"'
      · subst hq
        obtain ⟨hc, hbc⟩ | ⟨hc, _⟩ := hpeek
        · simp only [hbc, if_true, stringRest, append_nil]
          exact ⟨['"'], _, rfl, h.bump_ascii hc, rfl⟩
        · exact absurd hc (by decide)
      by_cases hs : c = '\\'
      · subst hs
        obtain ⟨hc, hbc⟩ | ⟨hc, _⟩ := hpeek
        · have h1 := h.bump_ascii hc
          simp only [hbc, if_true]
          rw [if_neg (by decide)]
          cases s with
          | nil =>
            rw [h1.peek_none.mpr rfl]
            exact ih value h1 (by simp [ht]) (hlt (n := 1) (by omega) hpos)
          | cons d s =>
            rcases h1.peek_cons with ⟨hd, hpd⟩ | ⟨hd, b2, hpd, hb2⟩
            · rw [hpd]
              have := ih (value ++ [unescape d]) (h1.bump_ascii hd) (by simp [ht]) (hlt (n := 2) (by omega) hpos)
              simp only [stringRest, cutsInto, if_pos hd]
              cases hr : stringRest s with
              | none => rw [hr] at this; exact this
              | some vr =>
                rw [hr] at this
                obtain ⟨body, lx', rfl, hat, hres⟩ := this
                exact ⟨'\\' :: d :: body, lx', rfl, by simpa using hat, by simpa using hres⟩
            · -- the next round starts inside the character
              rw [hpd]
              have hnd : ¬ d.toNat < 128 := by omega
              obtain ⟨fuel, rfl⟩ := Nat.exists_eq_succ_of_ne_zero
                (Nat.pos_iff_ne_zero.mp (Nat.zero_lt_of_lt (hlt (n := 1) (by omega) hpos)))
              simp only [stringRest, cutsInto, if_neg hnd, if_true]
              exact stringBody_inside start _ h1 hd
        · exact absurd hc (by decide)
      · have hnq : Char.ofUInt8 b ≠ '"' := by
          rcases hpeek with ⟨_, hbc⟩ | ⟨_, hbc⟩
          · rwa [hbc]
          · exact ne_of_high hbc (by decide)
        have hns : Char.ofUInt8 b ≠ '\\' := by
          rcases hpeek with ⟨_, hbc⟩ | ⟨_, hbc⟩
          · rwa [hbc]
          · exact ne_of_high hbc (by decide)
        have hlen : 1 + ((bs ++ Str.bytes s).takeWhile isContinuation).length =
            (Str.bytes [c]).length := by
          rw [takeWhile_continuation s hcont]
          simp [he]; omega
        rw [if_neg hnq, if_neg hns, hlen]
        have hat : lx.At pre ([c] ++ s) := h
        simp only [hat.slice]
        have := ih (value ++ [c]) hat.bumps (by simp [ht]) (hlt (by simp [he]) hpos)
        rw [stringRest_plain s hq hs, cutsInto_plain s hq hs]
        cases hr : stringRest s with
        | none => rw [hr] at this; exact this
        | some vr =>
          rw [hr] at this
          obtain ⟨body, lx', rfl, hat', hres⟩ := this
          exact ⟨c :: body, lx', rfl, by simpa using hat', by simpa using hres⟩

/-! ## Tokens -/

def unterminatedEnv (span : Span) : Failure :=
  .diag ((Diagnostic.error .cfgSyntax "unterminated `$\x7b...\x7d` environment reference" span).withHelp
    "add a closing `\x7d`")

/-- Why no token starts with `c` before `s`. -/
def nextFailure (pre : Str) (c : Char) (s : Str) : Failure :=
  if c = '"' then if cutsInto s then .panic else unterminatedString (spanAt pre (c :: s))
  else unterminatedEnv (spanAt pre (c :: s))

/-- The answer for the token that starts with `c` before `s`: its kind and span, and the state behind it. -/
def Reads (pre : Str) (c : Char) (s : Str) (res : Except Failure (Token × Lexer)) : Prop :=
  match nextKind c s with
  | some (k, r) => ∃ body lx, c :: s = body ++ r ∧ lx.At (pre ++ body) r ∧ res = .ok (⟨k, spanAt pre body⟩, lx)
  | none => res = .error (nextFailure pre c s)

theorem lexString_reads (h : lx.At pre ('"' :: s)) : Reads pre '"' s lx.lexString := by
  have hlen : lx.bump.bytes.length < lx.bytes.length + 1 := by
    rw [bump_bytes, length_drop]; omega
  have hbody := stringBody_reads [] (h.bump_ascii (by decide)) (bump_text lx) hlen
  have hnext : nextKind '"' s = (stringRest s).map (fun r => (.str r.1, r.2)) := rfl
  rw [Reads, hnext]
  cases hr : stringRest s with
  | none =>
    rw [hr] at hbody
    simpa [lexString, nextFailure, h.spanToEnd] using hbody
  | some vr =>
    rw [hr] at hbody
    obtain ⟨body, lx', rfl, hat, hres⟩ := hbody
    rw [append_assoc] at hat
    refine ⟨'"' :: body, lx', rfl, hat, ?_⟩
    rw [h.spanFrom hat] at hres
    exact hres

theorem lexEnv_reads {lx : Lexer} {pre s : Str} (h : lx.At pre ('$' :: '{' :: s)) :
    Reads pre '$' ('{' :: s) lx.lexEnv := by
  have hin := (h.bump_ascii (by decide)).bump_ascii (by decide)
  have hp : ∀ c : Char, 128 ≤ c.toNat → decide (c ≠ '}') :=
    fun c hc => by simpa using ne_of_high hc (by decide)
  have hlen : (lx.bump.bump.bytes.takeWhile (fun b => decide (Char.ofUInt8 b ≠ '}'))).length =
      (Str.bytes (s.takeWhile (· ≠ '}'))).length := by
    rw [hin.bytes, takeWhile_bytes hp]
  have hnext : nextKind '$' ('{' :: s) = match s.dropWhile (· ≠ '}') with
      | [] => none
      | _ :: rest => some (.env (s.takeWhile (· ≠ '}')), rest) := rfl
  have hs : s.takeWhile (· ≠ '}') ++ s.dropWhile (· ≠ '}') = s := takeWhile_append_dropWhile
  rw [Reads, hnext]
  simp only [lexEnv, hlen]
  have hcons : ∀ {c rest}, s.dropWhile (· ≠ '}') = c :: rest → c = '}' := dropWhile_ne_cons
  generalize s.takeWhile (· ≠ '}') = v at *
  generalize s.dropWhile (· ≠ '}') = w at *
  subst hs
  have hstop := hin.bumps
  cases w with
  | nil =>
    have hpre : pre ++ ['$'] ++ ['{'] ++ v = pre ++ ('$' :: '{' :: v) := by simp
    rw [hpre] at hstop
    simp only [hstop.bytes, bytes_nil, h.spanFrom hstop, append_nil]
    rfl
  | cons c rest =>
    obtain rfl : c = '}' := hcons rfl
    obtain ⟨b, he, _⟩ := utf8EncodeChar_ascii (c := '}') (by decide)
    have hslice := hin.slice
    simp only [bump_text] at hslice
    have hat := hstop.bump_ascii (by decide)
    have hpre : pre ++ ['$'] ++ ['{'] ++ v ++ ['}'] = pre ++ ('$' :: '{' :: (v ++ ['}'])) := by simp
    rw [hpre] at hat
    simp only [hstop.bytes, bytes_cons, he, singleton_append, hslice]
    refine ⟨'$' :: '{' :: (v ++ ['}']), _, by simp, hat, ?_⟩
    rw [h.spanFrom hat]

theorem single_isAtomEnd (h : single c = some k) : isAtomEnd c := by
  unfold single at h
  split at h <;> first | rfl | cases h

theorem single_ascii (h : single c = some k) : c.toNat < 128 := by
  by_contra hc
  have := isAtomEnd_high (c := c) (by omega)
  rw [single_isAtomEnd h] at this
  cases this

theorem atomLen_cons (h1 : isAtomEnd c = false) (h2 : ¬ (c = '~' ∧ s.head? = some '>')) : atomLen id (c :: s) = atomLen id s + 1 := by
  have h3 : (c == '~' && s.head?.map id == some '>') = false := by
    rw [Bool.eq_false_iff]
    simpa using h2
  simp only [atomLen, id_eq, h1, h3, Bool.or_self, Bool.false_eq_true, if_false]

theorem isAtomEnd_eq_false (hh : isHorizontal c = false) (hg : c ≠ '#') (hs : isSeparator c = false) (h1 : single c = none)
    (h2 : c ≠ '"') : isAtomEnd c = false := by
  simp only [isAtomEnd, hh, hs, Bool.false_or, Bool.or_eq_false_iff, beq_eq_false_iff_ne]
  refine ⟨⟨⟨⟨⟨⟨⟨⟨⟨hg, ?_⟩, ?_⟩, ?_⟩, ?_⟩, ?_⟩, ?_⟩, ?_⟩, ?_⟩, h2⟩ <;>
    (rintro rfl; cases h1)

theorem lexAtom_reads (h : lx.At pre (c :: s)) (hc : atomLen id (c :: s) = atomLen id s + 1) :
    ∃ lx', lx'.At (pre ++ c :: s.take (atomLen id s)) (s.drop (atomLen id s)) ∧
      lx.lexAtom = .ok (⟨.atom (c :: s.take (atomLen id s)), spanAt pre (c :: s.take (atomLen id s))⟩, lx') := by
  have hlen : atomLen Char.ofUInt8 lx.bytes = (Str.bytes (c :: s.take (atomLen id s))).length := by
    rw [h.bytes, atomLen_bytes, hc, take_succ_cons]
  have hsplit : lx.At pre (c :: s.take (atomLen id s) ++ s.drop (atomLen id s)) := by
    rwa [cons_append, take_append_drop]
  refine ⟨_, hsplit.bumps, ?_⟩
  simp only [lexAtom, hlen, hsplit.slice, h.spanFrom hsplit.bumps]

theorem nextToken_reads {b : Char} (h : lx.At pre (c :: s)) (hb : lx.peek = some b) (hh : isHorizontal c = false) (hg : c ≠ '#')
    (hs : isSeparator c = false) : Reads pre c s (nextToken lx b) := by
  have hatom (hsing : single c = none) (h1 : ¬ (c = '~' ∧ s.head? = some '>')) (h2 : c ≠ '"')
      (h3 : ¬ (c = '$' ∧ s.head? = some '{')) (hres : nextToken lx b = lexAtom lx) : Reads pre c s (nextToken lx b) := by
    obtain ⟨lx', hat, hres'⟩ := lexAtom_reads h (atomLen_cons (isAtomEnd_eq_false hh hg hs hsing h2) h1)
    rw [Reads, nextKind, hsing]
    simp only [if_neg h1, if_neg h2, if_neg h3]
    exact ⟨_, lx', by simp, hat, hres.trans hres'⟩
  rcases h.peek_cons with ⟨hc, hpc⟩ | ⟨hc, b', hpb, hb'⟩
  · obtain rfl : b = c := by rw [hpc] at hb; exact (Option.some.inj hb).symm
    cases hsing : single b with
    | some k =>
      have hat := h.bump_ascii hc
      simp only [Reads, nextKind, nextToken, hsing]
      exact ⟨[b], _, rfl, hat, by rw [h.spanFrom hat]⟩
    | none =>
      by_cases h1 : b = '~' ∧ s.head? = some '>'
      · obtain ⟨t, rfl⟩ := head?_eq_some_iff.mp h1.2
        have hat := (h.bump_ascii hc).bump_ascii (by decide)
        rw [append_assoc] at hat
        have hp2 : b = '~' ∧ lx.peek2 = some '>' := ⟨h1.1, (h.peek2_ascii hc (by decide)).mpr rfl⟩
        simp only [Reads, nextKind, nextToken, hsing, if_pos h1, if_pos hp2]
        exact ⟨[b] ++ ['>'], _, rfl, hat, by rw [h.spanFrom hat]⟩
      · have hn1 : ¬ (b = '~' ∧ lx.peek2 = some '>') := by rwa [h.peek2_ascii hc (by decide)]
        by_cases h2 : b = '"'
        · subst h2
          exact lexString_reads h
        · by_cases h3 : b = '$' ∧ s.head? = some '{'
          · have hn3 : b = '$' ∧ lx.peek2 = some '{' := ⟨h3.1, (h.peek2_ascii hc (by decide)).mpr h3.2⟩
            have hres : nextToken lx b = lexEnv lx := by
              simp only [nextToken, hsing, if_neg hn1, if_neg h2, if_pos hn3]
            obtain ⟨t, rfl⟩ := head?_eq_some_iff.mp h3.2
            obtain ⟨rfl, _⟩ := h3
            rw [hres]
            exact lexEnv_reads h
          · have hn3 : ¬ (b = '$' ∧ lx.peek2 = some '{') := by rwa [h.peek2_ascii hc (by decide)]
            exact hatom hsing h1 h2 h3 (by simp only [nextToken, hsing, if_neg hn1, if_neg h2, if_neg hn3])
  · -- a byte above ASCII starts an atom
    have hne : ∀ {a : Char}, a.toNat < 128 → c ≠ a := fun ha => ne_of_high hc ha
    have hnb : ∀ {a : Char}, a.toNat < 128 → b ≠ a := by
      intro a ha
      rw [hpb] at hb
      cases hb
      exact ne_of_high hb' ha
    have hsc : single c = none := by
      cases hsing : single c with
      | none => rfl
      | some k => have := single_ascii hsing; omega
    have hsb : single b = none := by
      cases hsing : single b with
      | none => rfl
      | some k => exact absurd rfl (hnb (single_ascii hsing))
    refine hatom hsc (fun h => hne (by decide) h.1) (hne (by decide)) (fun h => hne (by decide) h.1) ?_
    simp only [nextToken, hsb, hnb (a := '~') (by decide), hnb (a := '"') (by decide), hnb (a := '$') (by decide),
      false_and, if_false]

/-! ## Whole texts -/

theorem skipHorizontal_at (h : lx.At pre s) :
    lx.skipHorizontal.At (pre ++ s.take (skipHorizontalLen id s)) (s.drop (skipHorizontalLen id s)) := by
  rw [skipHorizontal, h.bytes, skipHorizontalLen_bytes]
  exact h.bumps_take _

theorem consumeSeparatorRun_at (h : lx.At pre s) :
    lx.consumeSeparatorRun.At (pre ++ s.take (separatorRunLen id false s)) (s.drop (separatorRunLen id false s)) := by
  rw [consumeSeparatorRun, h.bytes, separatorRunLen_bytes]
  exact h.bumps_take _

/-- After the horizontal characters and a comment comes neither of them. -/
theorem skipHorizontal_next {t : Str} (h : s.drop (skipHorizontalLen id s) = c :: t) : isHorizontal c = false ∧ c ≠ '#' := by
  induction s with
  | nil => cases h
  | cons d s ih =>
    simp only [skipHorizontalLen, id_eq] at h
    split at h
    · exact ih h
    · split at h
      · obtain rfl : c = '\n' := dropWhile_ne_cons ((drop_takeWhile _ _).symm.trans h)
        decide
      · rename_i h1 h2
        obtain ⟨rfl, rfl⟩ : d = c ∧ s = t := by simpa using h
        exact ⟨by simpa using h1, h2⟩


end Lexer

/-- What the lexer returns for the text `s` behind `pre`. -/
def scan (pre s : Str) : Except Failure (List Token) :=
  match _hs : s.drop (skipHorizontalLen id s) with
  | [] => .ok [⟨.eof, spanAt (pre ++ s) []⟩]
  | c :: t =>
    let pre := pre ++ s.take (skipHorizontalLen id s)
    if isSeparator c then
      let body := c :: t.take (separatorRunLen id false t)
      (scan (pre ++ body) (t.drop (separatorRunLen id false t))).map (⟨.sep, spanAt pre body⟩ :: ·)
    else
      match _hk : nextKind c t with
      | none => .error (Lexer.nextFailure pre c t)
      | some (k, r) =>
        let body := (c :: t).take ((c :: t).length - r.length)
        (scan (pre ++ body) r).map (⟨k, spanAt pre body⟩ :: ·)
termination_by s.length
decreasing_by
  · have := congrArg List.length _hs
    simp only [length_drop, length_cons] at this ⊢
    omega
  · have h1 := congrArg List.length _hs
    have h2 := nextKind_length _hk
    simp only [length_drop, length_cons] at h1 h2 ⊢
    omega

/-- One step of the scan: the end, a run of separators or a token behind the gap. -/
theorem scan_eq (pre s : Str) :
    scan pre s =
      match s.drop (skipHorizontalLen id s) with
      | [] => .ok [⟨.eof, spanAt (pre ++ s) []⟩]
      | c :: t =>
        if isSeparator c then
          (scan (pre ++ s.take (skipHorizontalLen id s) ++ c :: t.take (separatorRunLen id false t))
            (t.drop (separatorRunLen id false t))).map
            (⟨.sep, spanAt (pre ++ s.take (skipHorizontalLen id s)) (c :: t.take (separatorRunLen id false t))⟩ :: ·)
        else
          match nextKind c t with
          | none => .error (Lexer.nextFailure (pre ++ s.take (skipHorizontalLen id s)) c t)
          | some (k, r) =>
            (scan (pre ++ s.take (skipHorizontalLen id s) ++ (c :: t).take ((c :: t).length - r.length)) r).map
              (⟨k, spanAt (pre ++ s.take (skipHorizontalLen id s))
                ((c :: t).take ((c :: t).length - r.length))⟩ :: ·) := by
  rw [scan]
  split
  · rename_i h; rw [h]
  · rename_i c t h
    rw [h]
    split
    · rename_i hc; simp only [if_pos hc]
    · rename_i hc
      simp only [if_neg hc]
      split
      · rename_i hk; rw [hk]
      · rename_i hk; rw [hk]

theorem Lexer.run_scan (h : lx.At pre s) (hf : s.length < fuel) : run fuel lx = scan pre s := by
  induction fuel generalizing lx pre s with
  | zero => omega
  | succ fuel ih =>
    have hat := skipHorizontal_at h
    rw [scan_eq, run]
    cases hs : s.drop (skipHorizontalLen id s) with
    | nil =>
      have htake : s.take (skipHorizontalLen id s) = s := by
        have := take_append_drop (skipHorizontalLen id s) s
        rwa [hs, append_nil] at this
      rw [hs, htake] at hat
      have hspan : lx.skipHorizontal.spanFrom lx.skipHorizontal = spanAt (pre ++ s) [] :=
        hat.spanFrom (by rwa [append_nil])
      simp [hat.peek_none.mpr rfl, hspan]
    | cons c t =>
      rw [hs] at hat
      obtain ⟨hh, hg⟩ := skipHorizontal_next hs
      have hlen : (c :: t).length ≤ s.length := by
        rw [← hs, length_drop]; omega
      have hsep : ∀ {b}, lx.skipHorizontal.peek = some b → isSeparator b = isSeparator c := by
        intro b hb
        rcases hat.peek_cons with ⟨_, hpc⟩ | ⟨hc, b', hpb, hb'⟩
        · rw [hpc] at hb; cases hb; rfl
        · rw [hpb] at hb; cases hb
          rw [isSeparator_high hc, isSeparator_high hb']
      cases hp : lx.skipHorizontal.peek with
      | none => exact absurd (hat.peek_none.mp hp) (by simp)
      | some b =>
        simp only [hsep hp]
        split
        · rename_i hcs
          have hat' := consumeSeparatorRun_at hat
          rw [separatorRunLen_pos hcs, drop_succ_cons, take_succ_cons] at hat'
          rw [hat.spanFrom hat', ih hat' (by simp only [length_cons, length_drop] at hlen ⊢; omega)]
          rfl
        · rename_i hcs
          have hr := nextToken_reads hat hp hh hg (by simpa using hcs)
          rw [Reads] at hr
          cases hk : nextKind c t with
          | none =>
            rw [hk] at hr
            rw [hr]
            rfl
          | some kr =>
            rw [hk] at hr
            obtain ⟨body, lx', hbody, hat', hres⟩ := hr
            have hl := nextKind_length hk
            have htake : (c :: t).take ((c :: t).length - kr.2.length) = body := by
              rw [hbody, length_append, Nat.add_sub_cancel, take_left]
            rw [hres]
            simp only [htake, ← ih hat' (by omega)]
            rfl

theorem Str.length_le_bytes (s : Str) : s.length ≤ s.bytes.length := by
  induction s with
  | nil => simp
  | cons c s ih =>
    have := c.utf8Size_pos
    rw [bytes_cons, length_append, utf8EncodeChar_length, length_cons]
    omega

theorem lex_eq_scan (text : Str) : lex text = scan [] text :=
  Lexer.run_scan (Lexer.new_at text) (Nat.lt_succ_of_le (Str.length_le_bytes text))

theorem scan_kinds (pre s : Str) : (scan pre s).toOption.map (·.map Token.kind) = kinds s := by
  induction hn : s.length using Nat.strong_induction_on generalizing pre s with
  | _ n ih =>
    have hmap (r : Except Failure (List Token)) (tok : Token) : (r.map (tok :: ·)).toOption.map (·.map Token.kind) =
        (r.toOption.map (·.map Token.kind)).map (tok.kind :: ·) := by
      cases r <;> rfl
    rw [scan_eq, kinds_eq]
    cases hs : s.drop (skipHorizontalLen id s) with
    | nil => rfl
    | cons c t =>
      have hlen := congrArg List.length hs
      simp only [length_drop, length_cons] at hlen
      simp only
      split
      · rw [hmap, ih _ (by rw [length_drop]; omega) _ _ rfl]
      · cases hk : nextKind c t with
        | none => rfl
        | some kr =>
          have hl := nextKind_length hk
          simp only [length_cons] at hl
          simp only [bind_some]
          rw [hmap, ih _ (by omega) _ _ rfl]

/-- The lexer reads the kinds of the text, or fails where there are none. -/
theorem lex_kinds (text : Str) : (lex text).toOption.map (·.map Token.kind) = kinds text := by
  rw [lex_eq_scan, scan_kinds]

/-! ## Kinds at the end and in between -/

/-- Neither the end of input nor an atom that holds a character an atom ends at. -/
def TokenKind.Inner (k : TokenKind) : Prop :=
  k ≠ .eof ∧ ∀ a, k = .atom a → ∀ c ∈ a, isAtomEnd c = false

theorem mem_take_atomLen : ∀ c ∈ s.take (atomLen id s), isAtomEnd c = false := by
  induction s with
  | nil => simp
  | cons d s ih =>
    simp only [atomLen, id_eq]
    split
    · simp
    · rename_i h
      simp only [Bool.or_eq_true, not_or, Bool.not_eq_true] at h
      intro c hc
      rw [take_succ_cons, mem_cons] at hc
      rcases hc with rfl | hc
      · exact h.1
      · exact ih c hc

theorem nextKind_inner (hh : isHorizontal c = false) (hg : c ≠ '#') (hs : isSeparator c = false)
    (h : nextKind c s = some (k, r)) : k.Inner := by
  rcases nextKind_cases h with ⟨hk, -⟩ | ⟨-, -, rfl⟩ | ⟨-, v, -, rfl⟩ | ⟨-, v, -, -, rfl⟩ | ⟨hk, -, hq, -, -, rfl⟩
  · unfold Lexer.single at hk
    split at hk <;> cases hk <;> exact ⟨by simp, by simp⟩
  · exact ⟨by simp, by simp⟩
  · exact ⟨by simp, by simp⟩
  · exact ⟨by simp, by simp⟩
  · refine ⟨by simp, ?_⟩
    intro a ha d hd
    cases ha
    rcases mem_cons.mp hd with rfl | hd
    · exact Lexer.isAtomEnd_eq_false hh hg hs hk hq
    · exact mem_take_atomLen d hd

/-- A text's tokens end in the only `eof`. -/
theorem kinds_inner {ks : List TokenKind} (h : kinds s = some ks) : ∃ init, ks = init ++ [.eof] ∧ ∀ k ∈ init, k.Inner := by
  induction hn : s.length using Nat.strong_induction_on generalizing s ks with
  | _ n ih =>
    rw [kinds_eq] at h
    cases hs : s.drop (skipHorizontalLen id s) with
    | nil =>
      rw [hs] at h
      cases h
      exact ⟨[], rfl, by simp⟩
    | cons c t =>
      rw [hs] at h
      obtain ⟨hh, hg⟩ := Lexer.skipHorizontal_next hs
      have hlen := congrArg List.length hs
      simp only [length_drop, length_cons] at hlen
      simp only at h
      split at h
      · obtain ⟨ks', hk, rfl⟩ := map_eq_some_iff.mp h
        obtain ⟨init, rfl, hi⟩ := ih _ (by rw [length_drop]; omega) hk rfl
        refine ⟨.sep :: init, rfl, ?_⟩
        intro k hk
        rcases mem_cons.mp hk with rfl | hk
        · exact ⟨by simp, by simp⟩
        · exact hi k hk
      · rename_i hc
        obtain ⟨⟨k, r⟩, hk, h⟩ := bind_eq_some_iff.mp h
        obtain ⟨ks', hk', rfl⟩ := map_eq_some_iff.mp h
        have hl := nextKind_length hk
        simp only [length_cons] at hl
        obtain ⟨init, rfl, hi⟩ := ih _ (by dsimp only; omega) hk' rfl
        refine ⟨k :: init, rfl, ?_⟩
        intro k' hk'
        rcases mem_cons.mp hk' with rfl | hk'
        · exact nextKind_inner hh hg (by simpa using hc) hk
        · exact hi k' hk'

end Pulsate.Flow
