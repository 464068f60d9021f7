import Pulsate.Flow.Lemmas.Cuts
import Pulsate.Flow.Lemmas.Machine
import Pulsate.Flow.Lemmas.Value
import Pulsate.Flow.Print

/-!
# What the parser does

Every function of the parser reads what a few frames of the machine stand for. It fails where the machine fails and with the same
diagnostic. Otherwise the tree it returns is printed as the tokens it has read, and the spans of the tree are put together from
theirs.
-/

namespace Pulsate.Flow

open List Pulsate.Flow.Frame

variable {tokens : List Token} {text : Str}

/-! ## Tokens that were read -/

@[simp] theorem significant_append (c c' : List Token) : significant (c ++ c') = significant c ++ significant c' := by
  simp [significant]

theorem significant_cons {t : Token} {kind : TokenKind} (c : List Token) (ht : t.kind = kind)
    (h : kind ≠ .sep ∧ kind ≠ .comma) : significant (t :: c) = kind :: significant c := by
  simp [significant, ht, h]

theorem significant_eq_nil {c : List Token} (h : ∀ t ∈ c, t.kind = .sep ∨ t.kind = .comma) : significant c = [] := by
  rw [significant, filter_eq_nil_iff]
  intro k hk
  obtain ⟨t, ht, rfl⟩ := mem_map.mp hk
  rcases h t ht with h | h <;> simp [h]

/-- The tokens are not empty, and one comes behind another. -/
structure Sorted (c : List Token) : Prop where
  inOrder : c.Pairwise (fun t t' => t.span.stop ≤ t'.span.offset)
  pos : ∀ t ∈ c, t.span.offset < t.span.stop

namespace Sorted

variable {c c' : List Token}

theorem left (h : Sorted (c ++ c')) : Sorted c :=
  ⟨(pairwise_append.mp h.inOrder).1, fun t ht => h.pos t (mem_append_left c' ht)⟩

theorem right (h : Sorted (c ++ c')) : Sorted c' :=
  ⟨(pairwise_append.mp h.inOrder).2.1, fun t ht => h.pos t (mem_append_right c ht)⟩

theorem first_lt {t : Token} (h : Sorted (t :: c)) {u : Token} (hu : u ∈ t :: c) :
    t.span.offset ≤ u.span.offset ∧ t.span.offset < u.span.stop := by
  have hpos := h.pos u hu
  rcases mem_cons.mp hu with rfl | hu
  · exact ⟨Nat.le_refl _, hpos⟩
  · have := h.pos t mem_cons_self
    have := (pairwise_cons.mp h.inOrder).1 u hu
    omega

theorem le_last {t : Token} (h : Sorted (c ++ [t])) {u : Token} (hu : u ∈ c ++ [t]) : u.span.stop ≤ t.span.stop := by
  rcases mem_append.mp hu with hu | hu
  · have := (pairwise_append.mp h.inOrder).2.2 u hu t (by simp)
    have := h.pos t (by simp)
    omega
  · rw [mem_singleton.mp hu]

end Sorted

/-- The span reaches from the start of a token to the end of one. -/
structure Covers (c : List Token) (span : Span) : Prop where
  start : ∃ t ∈ c, span.offset = t.span.offset
  stop : ∃ t ∈ c, span.stop = t.span.stop
  pos : span.offset < span.stop

/-- The spans cover tokens of the list, one behind another. -/
structure Lined (c : List Token) (spans : List Span) : Prop where
  inOrder : spans.Pairwise Span.Precedes
  covers : ∀ s ∈ spans, Covers c s

theorem Covers.mono {c c' : List Token} {span : Span} (h : Covers c span) (hsub : c ⊆ c') : Covers c' span := by
  obtain ⟨⟨t, ht, hstart⟩, ⟨t', ht', hstop⟩, hpos⟩ := h
  exact ⟨⟨t, hsub ht, hstart⟩, ⟨t', hsub ht', hstop⟩, hpos⟩

theorem Covers.precedes {c c' : List Token} {s s' : Span} (h : Covers c s) (h' : Covers c' s') (hc : Sorted (c ++ c')) :
    s.Precedes s' := by
  obtain ⟨t, ht, hstop⟩ := h.stop
  obtain ⟨t', ht', hstart⟩ := h'.start
  have hle := (pairwise_append.mp hc.inOrder).2.2 t ht t' ht'
  rw [← hstop, ← hstart] at hle
  exact ⟨Nat.lt_of_lt_of_le h.pos hle, hle⟩

namespace Lined

variable {c c' : List Token} {t : Token} {spans spans' : List Span}

theorem nil : Lined c [] := ⟨.nil, by simp⟩

theorem token (h : Sorted [t]) : Lined [t] [t.span] :=
  ⟨pairwise_singleton _ _, by simpa using ⟨⟨t, by simp⟩, ⟨t, by simp⟩, h.pos t (by simp)⟩⟩

theorem append (h : Lined c spans) (h' : Lined c' spans') (hc : Sorted (c ++ c')) : Lined (c ++ c') (spans ++ spans') := by
  constructor
  · refine pairwise_append.mpr ⟨h.inOrder, h'.inOrder, ?_⟩
    intro s hs s' hs'
    exact (h.covers s hs).precedes (h'.covers s' hs') hc
  · intro s hs
    rcases mem_append.mp hs with hs | hs
    · exact (h.covers s hs).mono (subset_append_left c c')
    · exact (h'.covers s hs).mono (subset_append_right c c')

theorem skip (h : Lined c spans) (hc : Sorted (t :: c)) : Lined (t :: c) spans := append (c := [t]) nil h hc

theorem keep (h : Lined c spans) (hc : Sorted (t :: c)) : Lined (t :: c) (t.span :: spans) :=
  append (token (Sorted.left (c := [t]) hc)) h hc

theorem close (h : Lined c spans) (hc : Sorted (c ++ [t])) : Lined (c ++ [t]) spans := by
  have : Lined (c ++ [t]) (spans ++ []) := h.append nil hc
  rwa [append_nil] at this

theorem le_last (h : Lined (c ++ [t]) spans) (hc : Sorted (c ++ [t])) : ∀ s ∈ spans, s.stop ≤ t.span.stop := by
  intro s hs
  obtain ⟨u, hu, hstop⟩ := (h.covers s hs).stop
  rw [hstop]
  exact hc.le_last hu

theorem le_getLast {s : Span} (h : Lined c (s :: spans)) :
    ∀ s' ∈ s :: spans, s'.stop ≤ (spans.getLast?.map Span.stop).getD s.stop := by
  obtain ⟨horder, hcovers⟩ := h
  induction spans using List.reverseRecOn with
  | nil => simp
  | append_singleton spans l _ =>
    rw [getLast?_concat, Option.map_some, Option.getD_some]
    rw [← cons_append] at horder hcovers ⊢
    intro s' hs'
    rcases mem_append.mp hs' with hs' | hs'
    · have hle := ((pairwise_append.mp horder).2.2 s' hs' l (by simp)).2
      exact Nat.le_trans hle (Nat.le_of_lt (hcovers l (by simp)).pos)
    · rw [mem_singleton.mp hs']

theorem getLast_mem {s : Span} (h : Lined c (s :: spans)) :
    ∃ t' ∈ c, (spans.getLast?.map Span.stop).getD s.stop = t'.span.stop := by
  cases hlast : spans.getLast? with
  | none => exact (h.covers s (by simp)).stop
  | some l => exact (h.covers l (mem_cons_of_mem s (mem_of_getLast? hlast))).stop

theorem encloses {stop : Nat} (h : Lined (t :: c) spans) (hc : Sorted (t :: c)) (hle : ∀ s ∈ spans, s.stop ≤ stop)
    (hstop : ∃ t' ∈ t :: c, stop = t'.span.stop) :
    (spanTo t.span stop).Encloses spans ∧ Lined (t :: c) [spanTo t.span stop] := by
  obtain ⟨t', ht', rfl⟩ := hstop
  have hlt := (hc.first_lt ht').2
  have hend : (spanTo t.span t'.span.stop).stop = t'.span.stop := by
    simp only [spanTo, Span.stop] at hlt ⊢
    omega
  refine ⟨⟨?_, h.inOrder⟩, pairwise_singleton _ _, ?_⟩
  · intro s hs
    obtain ⟨u, hu, hstart⟩ := (h.covers s hs).start
    rw [hend, hstart]
    exact ⟨(hc.first_lt hu).1, hle s hs⟩
  · rw [forall_mem_singleton]
    exact ⟨⟨t, mem_cons_self, rfl⟩, ⟨t', ht', hend⟩, by rw [hend]; exact hlt⟩

theorem encloses_close {t' : Token} (h : Lined (t :: (c ++ [t'])) spans) (hc : Sorted (t :: (c ++ [t']))) :
    (spanTo t.span t'.span.stop).Encloses spans ∧ Lined (t :: (c ++ [t'])) [spanTo t.span t'.span.stop] :=
  h.encloses hc (le_last (c := t :: c) h hc) ⟨t', by simp, rfl⟩

theorem encloses_getLast {s : Span} (h : Lined (t :: c) (s :: spans)) (hc : Sorted (t :: c)) :
    (spanTo t.span ((spans.getLast?.map Span.stop).getD s.stop)).Encloses (s :: spans) ∧
      Lined (t :: c) [spanTo t.span ((spans.getLast?.map Span.stop).getD s.stop)] :=
  h.encloses hc h.le_getLast h.getLast_mem

end Lined

/-! ## Parts of the tree -/

/-- What is read by one function of the parser: how it is printed, its span and whether its parts are nested. -/
structure Part (α : Type) where
  prints : α → List TokenKind → Prop
  span : α → Span
  nested : α → Prop

namespace Part

def value : Part (Spanned Value) := ⟨fun v => v.node.Prints, (·.span), Spanned.IsNested⟩
def arg : Part Arg := ⟨Arg.Prints, Arg.span, Arg.IsNested⟩
def predicate : Part Predicate := ⟨Predicate.Prints, (·.span), fun _ => True⟩
def matcher : Part Matcher := ⟨Matcher.Prints, (·.span), Matcher.IsNested⟩
def step : Part Step := ⟨Step.Prints, (·.span), Step.IsNested⟩
def route : Part Route := ⟨Route.Prints, (·.span), Route.IsNested⟩
def stmt : Part Stmt := ⟨Stmt.Prints, Stmt.span, Stmt.IsNested⟩

/-- The tokens are those of the part. -/
structure Reads {α : Type} (P : Part α) (c : List Token) (x : α) : Prop where
  ne_nil : c ≠ []
  prints : P.prints x (significant c)
  spans : Sorted c → Lined c [P.span x] ∧ P.nested x

/-- The tokens are those of the parts, with separators in between. -/
structure ReadsAll {α : Type} (P : Part α) (c : List Token) (xs : List α) : Prop where
  prints : PrintsEach P.prints xs (significant c)
  spans : Sorted c → Lined c (xs.map P.span) ∧ ∀ x ∈ xs, P.nested x

section

variable {α : Type} {P : Part α} {c c' : List Token} {x : α} {xs : List α}

theorem ReadsAll.nil (h : ∀ t ∈ c, t.kind = .sep ∨ t.kind = .comma) : P.ReadsAll c [] := by
  refine ⟨?_, fun _ => ⟨.nil, by simp⟩⟩
  rw [significant_eq_nil h]
  exact .nil

theorem ReadsAll.cons (h : P.Reads c x) (h' : P.ReadsAll c' xs) : P.ReadsAll (c ++ c') (x :: xs) := by
  constructor
  · rw [significant_append]
    exact .cons h.prints h'.prints
  · intro hc
    obtain ⟨hspan, hnested⟩ := h.spans hc.left
    obtain ⟨hspans, hnested'⟩ := h'.spans hc.right
    exact ⟨hspan.append hspans hc, forall_mem_cons.mpr ⟨hnested, hnested'⟩⟩

theorem ReadsAll.pad (h : P.ReadsAll c' xs) (hc : ∀ t ∈ c, t.kind = .sep ∨ t.kind = .comma) : P.ReadsAll (c ++ c') xs := by
  constructor
  · rw [significant_append, significant_eq_nil hc]
    exact h.prints
  · intro hsorted
    obtain ⟨hspans, hnested⟩ := h.spans hsorted.right
    exact ⟨Lined.nil.append hspans hsorted, hnested⟩

end

end Part

/-! ## Rules -/

open Machine (run run_nil run_cons)

namespace Parser

theorem skipSeps_peekKind_ne (p : Parser) : p.skipSeps.peekKind ≠ .sep := by
  rw [Parser.peekKind, Parser.peek, Parser.skipSeps]
  simp only
  cases ht : p.tokens.dropWhile (fun t => decide (t.kind = .sep)) with
  | nil => simp
  | cons t ts =>
    have := head?_dropWhile_not (fun t : Token => decide (t.kind = .sep)) p.tokens
    rw [ht] at this
    simpa using this

/-- What was read is what the machine reads for the frames, and it is as `Q` says. -/
structure Parsed {α : Type} (frames : List Frame) (p : Parser) (Q : List Token → α × Parser → Prop) (r : α × Parser) : Prop where
  ends : EndsOnce p.tokens → EndsOnce r.2.tokens
  read : ∃ c, p.tokens = c ++ r.2.tokens ∧ Q c r
  run : ∀ stack, run (frames ++ stack) p.tokens = run stack r.2.tokens

/-- The machine refuses the tokens, too. -/
structure Refused (frames : List Frame) (p : Parser) (e : Failure) : Prop where
  fuel : e ≠ .outOfFuel
  run : ∀ stack, run (frames ++ stack) p.tokens = .error e

/-- The tokens have no end, and the machine has read them all. -/
def Stuck (frames : List Frame) (p : Parser) : Prop := ∀ stack, stack ≠ [] → run (frames ++ stack) p.tokens = .error .panic

def Parses {α : Type} (frames : List Frame) (p : Parser) (res : Except Failure (α × Parser))
    (Q : List Token → α × Parser → Prop) : Prop :=
  Stuck frames p ∨ (∀ r, res = .ok r → Parsed frames p Q r) ∧ ∀ e, res = .error e → Refused frames p e

namespace Parses

variable {α β : Type} {f : Frame} {frames frames' : List Frame} {p q : Parser} {res : Except Failure (α × Parser)}
  {Q : List Token → α × Parser → Prop} {c : List Token}

theorem done {x : α} (h : Q [] (x, p)) : Parses [] p (.ok (x, p)) Q := by
  refine .inr ⟨?_, by rintro e ⟨⟩⟩
  rintro r ⟨⟩
  exact ⟨id, ⟨[], rfl, h⟩, fun _ => rfl⟩

theorem step (hends : EndsOnce p.tokens → EndsOnce q.tokens) (hc : p.tokens = c ++ q.tokens)
    (hrun : ∀ stack, run (frames ++ stack) p.tokens = run (frames' ++ stack) q.tokens)
    (h : Parses frames' q res (fun c' r => Q (c ++ c') r)) : Parses frames p res Q := by
  rcases h with hstuck | ⟨hok, herror⟩
  · exact .inl fun stack hstack => (hrun stack).trans (hstuck stack hstack)
  · refine .inr ⟨?_, ?_⟩
    · intro r hr
      obtain ⟨hends', ⟨c', hc', hq⟩, hrun'⟩ := hok r hr
      exact ⟨hends' ∘ hends, ⟨c ++ c', by rw [hc, hc', append_assoc], hq⟩, fun stack => (hrun stack).trans (hrun' stack)⟩
    · intro e he
      obtain ⟨hfuel, hrun'⟩ := herror e he
      exact ⟨hfuel, fun stack => (hrun stack).trans (hrun' stack)⟩

theorem bind {k : α × Parser → Except Failure (β × Parser)} {S : List Token → β × Parser → Prop} (gs : List Frame)
    (h : Parses frames p res Q) (hk : ∀ c x q, Q c (x, q) → c.length + q.tokens.length = p.tokens.length →
      Parses gs q (k (x, q)) (fun c' r => S (c ++ c') r)) : Parses (frames ++ gs) p (res >>= k) S := by
  rcases h with hstuck | ⟨hok, herror⟩
  · refine .inl fun stack hstack => ?_
    rw [append_assoc]
    exact hstuck (gs ++ stack) (by simp [hstack])
  cases res with
  | error e =>
    refine .inr ⟨by rintro r ⟨⟩, ?_⟩
    rintro e' ⟨⟩
    obtain ⟨hfuel, hrun⟩ := herror e rfl
    exact ⟨hfuel, fun stack => by rw [append_assoc, hrun]⟩
  | ok r =>
    obtain ⟨hends, ⟨c, hc, hq⟩, hrun⟩ := hok r rfl
    have hlen : c.length + r.2.tokens.length = p.tokens.length := by rw [hc, length_append]
    exact step hends hc (fun stack => by rw [append_assoc, hrun]) (hk c r.1 r.2 hq hlen)

theorem map {k : α × Parser → Except Failure (β × Parser)} {S : List Token → β × Parser → Prop} (h : Parses frames p res Q)
    (hk : ∀ c x q, Q c (x, q) → ∃ y, k (x, q) = .ok (y, q) ∧ S c (y, q)) : Parses frames p (res >>= k) S := by
  have := h.bind (k := k) (S := S) [] (fun c x q hq _ => by
    obtain ⟨y, hy, hs⟩ := hk c x q hq
    rw [hy]
    exact done (by rwa [append_nil]))
  rwa [append_nil] at this

theorem mono {R : List Token → α × Parser → Prop} (h : Parses frames p res Q) (hQ : ∀ c r, Q c r → R c r) :
    Parses frames p res R := by
  refine h.imp_right (And.imp_left ?_)
  intro hok r hr
  obtain ⟨hends, ⟨c, hc, hq⟩, hrun⟩ := hok r hr
  exact ⟨hends, ⟨c, hc, hQ c r hq⟩, hrun⟩

theorem shift (gs : List Frame) (ha : f.action p.peekKind = .shift gs) (hk : p.peekKind ≠ .eof)
    (h : p.bump.tokens.length < p.tokens.length → p.bump.prevSpan = p.peek.span →
      Parses (gs ++ frames) p.bump res (fun c r => Q (p.peek :: c) r)) : Parses (f :: frames) p res Q := by
  obtain ⟨span, tokens⟩ := p
  cases tokens with
  | nil => exact absurd rfl hk
  | cons t tokens =>
    have hrun (stack : List Frame) : run (f :: frames ++ stack) (t :: tokens) = run (gs ++ frames ++ stack) tokens := by
      have ha' : f.action t.kind = .shift gs := ha
      rw [cons_append, run_cons, ha', append_assoc]
    cases tokens with
    | nil =>
      refine .inl fun stack hstack => (hrun stack).trans ?_
      obtain ⟨g, rest, hrest⟩ := exists_cons_of_ne_nil (append_ne_nil_of_right_ne_nil (gs ++ frames) hstack)
      rw [hrest]
      rfl
    | cons t' tokens =>
      exact step (c := [t]) (EndsOnce.right (by rwa [forall_mem_singleton])) rfl hrun (h (by simp [bump]) rfl)

theorem pop (ha : f.action p.peekKind = .pop) (h : Parses frames p res Q) : Parses (f :: frames) p res Q := by
  obtain ⟨span, tokens⟩ := p
  cases tokens with
  | nil => exact .inl fun _ _ => rfl
  | cons t tokens =>
    refine step (c := []) id rfl (fun stack => ?_) h
    have ha' : f.action t.kind = .pop := ha
    rw [cons_append, run_cons, ha']

theorem fail {code : Code} {message : Str} (ha : f.action p.peekKind = .fail code message) :
    Parses (f :: frames) p (.error (p.err code message)) Q := by
  obtain ⟨span, tokens⟩ := p
  cases tokens with
  | nil => exact .inl fun _ _ => rfl
  | cons t tokens =>
    refine .inr ⟨by rintro r ⟨⟩, ?_⟩
    rintro e ⟨⟩
    refine ⟨by simp [Parser.err], fun stack => ?_⟩
    have ha' : f.action t.kind = .fail code message := ha
    rw [cons_append, run_cons, ha']
    rfl

theorem seps (ha : f.action .sep = .shift [f]) (h : ∀ s, (∀ t ∈ s, Token.kind t = .sep ∨ t.kind = .comma) →
      p.skipSeps.tokens.length ≤ p.tokens.length → Parses (f :: frames) p.skipSeps res (fun c r => Q (s ++ c) r)) :
    Parses (f :: frames) p res Q := by
  have hsplit := takeWhile_append_dropWhile (p := fun t : Token => decide (t.kind = .sep)) (l := p.tokens)
  have hsep : ∀ t ∈ p.tokens.takeWhile (fun t => decide (t.kind = .sep)), t.kind = .sep :=
    fun t ht => by simpa using mem_takeWhile_imp ht
  refine step ?_ hsplit.symm ?_ (h _ (fun t ht => .inl (hsep t ht)) (dropWhile_suffix _).length_le)
  · intro hp
    rw [← hsplit] at hp
    exact hp.right (fun t ht => by simp [hsep t ht])
  · have hrun (stack : List Frame) (tokens : List Token) :
        run (f :: stack) (tokens.dropWhile (fun t => decide (t.kind = .sep))) = run (f :: stack) tokens := by
      induction tokens with
      | nil => rfl
      | cons t tokens ih =>
        by_cases ht : t.kind = .sep
        · rw [dropWhile_cons_of_pos (by simpa using ht), ih, run_cons, ht, ha]
          rfl
        · rw [dropWhile_cons_of_neg (by simpa using ht)]
    exact fun stack => (hrun (frames ++ stack) p.tokens).symm

end Parses

/-! ## Lists -/

/-- What becomes of a list: it is complete before `close` and broken before any other token. -/
structure Closes {α β : Type} (P : Part α) (close : TokenKind) (message : Str) (k : List α × Parser → Except Failure (β × Parser))
    (S : List Token → β × Parser → Prop) : Prop where
  closed : ∀ c xs q, P.ReadsAll c xs → q.peekKind = close → ∃ y, k (xs, q) = .ok (y, q.bump) ∧ S (c ++ [q.peek]) (y, q.bump)
  broken : ∀ xs q, q.peekKind ≠ close → k (xs, q) = .error (q.err .cfgSyntax message)

section Lists

variable {α β : Type} {P : Part α} {close : TokenKind} {message : Str} {k : List α × Parser → Except Failure (β × Parser)}
  {S : List Token → β × Parser → Prop} {f next : Frame} {s c : List Token} {q : Parser}

theorem Closes.cons (h : Closes P close message k S) {x : α} (hx : ∀ {c' xs}, P.ReadsAll c' xs → P.ReadsAll (c ++ c') (x :: xs)) :
    Closes P close message (fun r => k (x :: r.1, r.2)) (fun c' r => S (c ++ c') r) := by
  refine ⟨?_, fun xs q hq => h.broken (x :: xs) q hq⟩
  intro c' xs q hxs hq
  rw [← append_assoc]
  exact h.closed (c ++ c') (x :: xs) q (hx hxs) hq

theorem Closes.parses (h : Closes P close message k S) {xs : List α} (hxs : P.ReadsAll c xs)
    (hclose : f.action close = .shift []) (hne : close ≠ .eof) (hq : q.peekKind = close) :
    Parses [f] q (k (xs, q)) (fun c' r => S (c ++ c') r) := by
  obtain ⟨y, hy, hs⟩ := h.closed c xs q hxs hq
  rw [hy]
  exact .shift [] (by rw [hq, hclose]) (by rw [hq]; exact hne) fun _ _ => .done hs

theorem parses_more (hf : ∀ kind, f.action kind = more f next close message kind)
    (hne : close ≠ .sep ∧ close ≠ .comma ∧ close ≠ .eof) (hk : Closes P close message k S)
    (hs : ∀ t ∈ s, t.kind = .sep ∨ t.kind = .comma) {x : α} (hx : P.Reads c x) {loop : Except Failure (List α × Parser)}
    (hloop : ∀ {k S}, Closes P close message k S → q.skipSeps.bump.tokens.length < q.tokens.length →
      Parses [next] q.skipSeps.bump (loop >>= k : Except Failure (β × Parser)) S) :
    Parses [f] q ((if q.skipSeps.peekKind = .comma then loop >>= fun r => .ok (x :: r.1, r.2)
      else .ok ([x], q.skipSeps)) >>= k) (fun c' r => S (s ++ (c ++ c')) r) := by
  refine .seps (by rw [hf]; rfl) ?_
  intro s' hs' hlen
  split
  · rename_i hcomma
    rw [bind_assoc]
    refine .shift [next] (by rw [hf, hcomma]; rfl) (by simp [hcomma]) ?_
    intro hlen' _
    have hsep : ∀ t ∈ s' ++ [q.skipSeps.peek], t.kind = .sep ∨ t.kind = .comma := by
      intro t ht
      rcases mem_append.mp ht with ht | ht
      · exact hs' t ht
      · rw [mem_singleton.mp ht]
        exact .inr hcomma
    have hmore := hk.cons (c := s ++ (c ++ (s' ++ [q.skipSeps.peek]))) (x := x) (fun {c' xs} hxs => by
      have := ((hxs.pad hsep).cons hx).pad hs
      simpa only [append_assoc] using this)
    have hrest := hloop hmore (by omega)
    simp only [append_assoc, singleton_append] at hrest
    exact hrest
  · rename_i hcomma
    by_cases hclose : q.skipSeps.peekKind = close
    · have hlist : P.ReadsAll (s ++ (c ++ s')) [x] := ((Part.ReadsAll.nil hs').cons hx).pad hs
      have hend : f.action close = .shift [] := by rw [hf, more, if_neg hne.1, if_neg hne.2.1, if_pos rfl]
      have hlast := hk.parses hlist hend hne.2.2 hclose
      simp only [append_assoc] at hlast
      exact hlast
    · have hbroken : (Except.ok ([x], q.skipSeps) >>= k) = .error (q.skipSeps.err .cfgSyntax message) :=
        hk.broken _ _ hclose
      rw [hbroken]
      refine .fail ?_
      rw [hf, more, if_neg (skipSeps_peekKind_ne q), if_neg hcomma, if_neg hclose]

end Lists

/-! ## Values and arguments -/

theorem leaf_reads {p : Parser} {v : Value} {kind : TokenKind} (hp : p.peekKind = kind) (hkind : kind ≠ .sep ∧ kind ≠ .comma)
    (hv : v.Prints [kind]) (hleaf : ∀ items, v ≠ .array items) : Part.value.Reads [p.peek] ⟨v, p.peek.span⟩ := by
  refine ⟨by simp, ?_, fun hc => ⟨.token hc, .leaf hleaf⟩⟩
  rw [significant_cons [] hp hkind]
  exact hv

theorem parseValueFuel_parses (n : Nat) :
    (∀ {β : Type} {f : Frame} {gs frames : List Frame} {p : Parser} {k : Spanned Value × Parser → Except Failure (β × Parser)}
      {S : List Token → β × Parser → Prop}, f.action p.peekKind = valueThen gs p.peekKind → 2 * p.tokens.length + 1 ≤ n →
      (∀ c v q, Part.value.Reads c v → q.tokens.length < p.tokens.length →
        Parses (gs ++ frames) q (k (v, q)) (fun c' r => S (c ++ c') r)) →
      Parses (f :: frames) p (parseValueFuel n p >>= k) S) ∧
    ∀ {β : Type} {p : Parser} {k : List (Spanned Value) × Parser → Except Failure (β × Parser)}
      {S : List Token → β × Parser → Prop}, 2 * p.tokens.length + 2 ≤ n →
      Closes Part.value .rBracket "expected `]` to close array" k S → Parses [.items] p (parseItemsFuel n p >>= k) S := by
  induction n with
  | zero => exact ⟨fun _ hn => by omega, fun hn => by omega⟩
  | succ n ih =>
    constructor
    · intro β f gs frames p k S ha hn hk
      rw [parseValueFuel]
      cases hp : p.peekKind with
      | str s =>
        rw [hp] at ha
        exact .shift gs (by rw [hp, ha]; rfl) (by simp [hp]) fun hlen _ =>
          hk _ _ _ (leaf_reads hp (by simp) (.str s) (by simp)) hlen
      | env inner =>
        rw [hp] at ha
        have henv : ∀ items, typeEnv inner ≠ .array items := by
          intro items
          rw [typeEnv]
          split <;> simp
        exact .shift gs (by rw [hp, ha]; rfl) (by simp [hp]) fun hlen _ =>
          hk _ _ _ (leaf_reads hp (by simp) (.env inner) henv) hlen
      | atom raw =>
        rw [hp] at ha
        exact .shift gs (by rw [hp, ha]; rfl) (by simp [hp]) fun hlen _ =>
          hk _ _ _ (leaf_reads hp (by simp) (.atom raw) (typeAtom_ne_array raw)) hlen
      | lBracket =>
        rw [hp] at ha
        refine .shift (.items :: gs) (by rw [hp, ha]; rfl) (by simp [hp]) ?_
        intro hlen _
        refine .bind (Q := fun c r => Part.value.Reads (p.peek :: c) r.1) (gs ++ frames) (ih.2 (by omega) ⟨?_, ?_⟩) ?_
        · intro c items q hitems hq
          simp only [hq, if_true]
          refine ⟨_, rfl, by simp, ?_, ?_⟩
          · rw [significant_cons _ hp (by simp), significant_append, significant_cons [] hq (by simp)]
            exact .array hitems.prints
          · intro hc
            have hsorted : Sorted (c ++ [q.peek]) := Sorted.right (c := [p.peek]) hc
            obtain ⟨hspans, hnested⟩ := hitems.spans hsorted.left
            obtain ⟨hencloses, hlined⟩ := ((hspans.close hsorted).skip hc).encloses_close hc
            exact ⟨hlined, .array hencloses hnested⟩
        · intro items q hq
          simp only [if_neg hq]
          rfl
        · exact fun c v q hv hlen' => hk _ v q hv (by omega)
      | _ =>
        rw [hp] at ha
        exact .fail (by rw [hp, ha]; rfl)
    · intro β p k S hn hk
      rw [parseItemsFuel]
      refine .seps rfl ?_
      intro s hs hlen
      split
      · rename_i hclose
        exact hk.parses (.nil hs) rfl (by simp) hclose
      · rename_i hclose
        rw [bind_assoc]
        have ha : items.action p.skipSeps.peekKind = valueThen [.moreItems] p.skipSeps.peekKind := by
          rw [action, if_neg (skipSeps_peekKind_ne p), if_neg hclose]
        refine ih.1 ha (by omega) ?_
        intro c item q hitem hlen'
        exact parses_more (fun _ => rfl) (by simp) hk hs hitem (fun hk hlen'' => ih.2 (by omega) hk)

section

variable {β : Type} {f : Frame} {gs frames : List Frame} {p : Parser} {S : List Token → β × Parser → Prop}

theorem parseValue_parses {k : Spanned Value × Parser → Except Failure (β × Parser)}
    (ha : f.action p.peekKind = valueThen gs p.peekKind)
    (hk : ∀ c v q, Part.value.Reads c v → q.tokens.length < p.tokens.length →
      Parses (gs ++ frames) q (k (v, q)) (fun c' r => S (c ++ c') r)) : Parses (f :: frames) p (parseValue p >>= k) S :=
  (parseValueFuel_parses _).1 ha le_rfl hk

theorem parseArg_parses {k : Arg × Parser → Except Failure (β × Parser)} (ha : f.action p.peekKind = argThen gs p.peekKind)
    (hk : ∀ c a q, Part.arg.Reads c a → q.tokens.length < p.tokens.length →
      Parses (gs ++ frames) q (k (a, q)) (fun c' r => S (c ++ c') r)) : Parses (f :: frames) p (parseArg p >>= k) S := by
  have hpositional {c : List Token} {v : Spanned Value} (hv : Part.value.Reads c v) : Part.arg.Reads c (.positional v) :=
    ⟨hv.ne_nil, hv.prints, hv.spans⟩
  rw [parseArg, nextKind_eq_bump]
  cases hp : p.peekKind with
  | atom name =>
    rw [hp] at ha
    refine .shift (.assign :: gs) (by rw [hp, ha]; rfl) (by simp [hp]) ?_
    intro hlen _
    by_cases heq : p.bump.peekKind = .equals
    · rw [heq]
      refine .shift [.value] (by rw [heq]; rfl) (by simp [heq]) ?_
      intro hlen1 _
      simp only [bind_assoc]
      refine parseValue_parses rfl ?_
      intro c v q hv hlen2
      refine hk (p.peek :: p.bump.peek :: c) _ q ⟨by simp, ⟨significant c, hv.prints, ?_⟩, ?_⟩ (by omega)
      · rw [significant_cons _ hp (by simp), significant_cons _ heq (by simp)]
      · intro hc
        have hsorted : Sorted (p.bump.peek :: c) := Sorted.right (c := [p.peek]) hc
        obtain ⟨hspan, hnested⟩ := hv.spans (Sorted.right (c := [p.bump.peek]) hsorted)
        obtain ⟨hencloses, hlined⟩ := ((hspan.skip hsorted).keep hc).encloses_getLast hc
        exact ⟨hlined, hencloses, hnested⟩
    · refine .pop (by rw [action, if_neg heq]) ?_
      have hread : parseValue p = .ok (⟨typeAtom name, p.peek.span⟩, p.bump) := by
        rw [parseValue, parseValueFuel, hp]
      cases hnext : p.bump.peekKind with
      | equals => exact absurd hnext heq
      | _ =>
        simp only [hread]
        exact hk _ _ p.bump (hpositional (leaf_reads hp (by simp) (.atom name) (typeAtom_ne_array name))) hlen
  | _ =>
    rw [hp] at ha
    simp only [bind_assoc]
    exact parseValue_parses (by rw [hp, ha]; rfl) (fun c v q hv hlen => hk c _ q (hpositional hv) hlen)

theorem action_spaceArgs (p : Parser) : spaceArgs.action p.peekKind =
    if p.startsArg then argThen [.spaceArgs] p.peekKind else .pop := by
  rw [startsArg]
  cases p.peekKind <;> rfl

theorem parseSpaceArgsFuel_parses (n : Nat) (p : Parser) (hn : p.tokens.length + 1 ≤ n) :
    Parses [.spaceArgs] p (parseSpaceArgsFuel n p) (fun c r => Part.arg.ReadsAll c r.1) := by
  induction n generalizing p with
  | zero => omega
  | succ n ih =>
    rw [parseSpaceArgsFuel]
    split
    · rename_i hs
      refine parseArg_parses (by rw [action_spaceArgs, if_pos hs]) ?_
      intro c arg q harg hlen
      exact (ih q (by omega)).map (fun c' args r hargs => ⟨_, rfl, .cons harg hargs⟩)
    · rename_i hs
      exact .pop (by rw [action_spaceArgs, if_neg hs]) (.done (.nil (by simp)))

/-! ## Routes -/

theorem parsePredicate_parses {key : Str} {k : Predicate × Parser → Except Failure (β × Parser)} (hp : p.peekKind = .atom key)
    (hk : ∀ c pred q, Part.predicate.Reads (p.peek :: c) pred → q.tokens.length ≤ p.bump.tokens.length →
      Parses frames q (k (pred, q)) (fun c' r => S (c ++ c') r)) :
    Parses (.assign :: frames) p.bump (parsePredicate key p >>= k) S := by
  rw [parsePredicate]
  split
  · rename_i hq
    refine .shift [.value] (by rw [hq]; rfl) (by simp [hq]) ?_
    intro hlen _
    rw [bind_assoc]
    refine parseValue_parses rfl ?_
    intro c v q hv hlen1
    refine hk (p.bump.peek :: c) _ q ⟨by simp, ?_, ?_⟩ (by omega)
    · rw [significant_cons _ hp (by simp), significant_cons _ hq (by simp)]
      exact .value key _ hv.prints
    · intro hc
      have hsorted : Sorted (p.bump.peek :: c) := Sorted.right (c := [p.peek]) hc
      obtain ⟨hspan, -⟩ := hv.spans (Sorted.right (c := [p.bump.peek]) hsorted)
      obtain ⟨-, hlined⟩ := ((hspan.skip hsorted).keep hc).encloses_getLast hc
      exact ⟨hlined, trivial⟩
  · rename_i hq
    refine .pop (by rw [action, if_neg hq]) (hk [] _ p.bump ⟨by simp, ?_, ?_⟩ le_rfl)
    · rw [significant_cons _ hp (by simp)]
      exact .bare key _
    · exact fun hc => ⟨((Lined.token hc).encloses_getLast hc).2, trivial⟩

theorem parsePredicateListFuel_parses (n : Nat) {p : Parser} {k : List Predicate × Parser → Except Failure (β × Parser)}
    {S : List Token → β × Parser → Prop} (hn : p.tokens.length + 1 ≤ n)
    (hk : Closes Part.predicate .rBracket "expected `]` to close predicates" k S) :
    Parses [.preds] p (parsePredicateListFuel n p >>= k) S := by
  induction n generalizing p k S with
  | zero => omega
  | succ n ih =>
    rw [parsePredicateListFuel]
    refine .seps rfl ?_
    intro s hs hlen
    simp only
    cases hp : p.skipSeps.peekKind with
    | sep => exact absurd hp (skipSeps_peekKind_ne p)
    | rBracket => exact hk.parses (.nil hs) rfl (by simp) hp
    | atom key =>
      refine .shift [.assign, .morePreds] (by rw [hp]; rfl) (by simp [hp]) ?_
      intro hlen1 _
      simp only [bind_assoc]
      refine parsePredicate_parses hp ?_
      intro c pred q hpred hlen2
      exact parses_more (fun _ => rfl) (by simp) hk hs hpred (fun hk hlen3 => ih (by omega) hk)
    | _ => exact .fail (by rw [hp]; rfl)

end

/-- The part of `parse_matcher` behind the sign. -/
def matcherRest (kind : MatchKind) (start : Span) (q : Parser) : Except Failure (Matcher × Parser) :=
  match q.peekKind with
  | .atom pat => do
    let pattern : Spanned Str := ⟨pat, q.peek.span⟩
    if q.bump.peekKind = .lBracket then
      let ((predicates, stop), r) ← parsePredicates q.bump
      return (⟨kind, pattern, predicates, spanTo start stop⟩, r)
    else return (⟨kind, pattern, [], spanTo start pattern.span.stop⟩, q.bump)
  | _ => .error (q.err .cfgSyntax "expected a route pattern")

theorem parseMatcher_eq (p : Parser) : parseMatcher p = matcherRest p.parseMatchKind.1 p.peek.span p.parseMatchKind.2 := rfl

/-- The tokens are those of a pattern and its predicates. -/
structure ReadsPattern (c : List Token) (kind : MatchKind) (start : Span) (m : Matcher) : Prop where
  kind : m.kind = kind
  prints : ∃ ks, PrintsBracket m.predicates ks ∧ significant c = .atom m.pattern.node :: ks
  spans : Sorted c → Lined c (m.pattern.span :: m.predicates.map (·.span)) ∧ ∃ t ∈ c, m.span = spanTo start t.span.stop ∧
    ∀ s ∈ m.pattern.span :: m.predicates.map (·.span), s.stop ≤ t.span.stop

theorem matcherRest_atom {kind : MatchKind} {start : Span} {q : Parser} {pat : Str} (hq : q.peekKind = .atom pat) :
    Parses [.bracket] q.bump (matcherRest kind start q) (fun c r => ReadsPattern (q.peek :: c) kind start r.1) := by
  rw [matcherRest, hq]
  simp only
  split
  · rename_i hb
    refine .shift [.preds] (by rw [hb]; rfl) (by simp [hb]) ?_
    intro hlen _
    rw [parsePredicates]
    simp only [bind_assoc]
    refine parsePredicateListFuel_parses _ (by omega) ⟨?_, ?_⟩
    · intro c preds r hpreds hr
      simp only [if_pos hr]
      refine ⟨_, rfl, rfl, ⟨_, .some hpreds.prints, ?_⟩, ?_⟩
      · rw [significant_cons _ hq (by simp), significant_cons _ hb (by simp), significant_append,
          significant_cons [] hr (by simp)]
        rfl
      · intro hc
        have hinner : Sorted (q.bump.peek :: (c ++ [r.peek])) := Sorted.right (c := [q.peek]) hc
        have hlist : Sorted (c ++ [r.peek]) := Sorted.right (c := [q.bump.peek]) hinner
        have hlined := (((hpreds.spans hlist.left).1.close hlist).skip hinner).keep hc
        exact ⟨hlined, r.peek, by simp, rfl, Lined.le_last (c := q.peek :: q.bump.peek :: c) hlined hc⟩
    · intro preds r hr
      simp only [if_neg hr]
      rfl
  · rename_i hb
    refine .pop (by rw [action, if_neg hb]) (.done ⟨rfl, ⟨[], .none, ?_⟩, ?_⟩)
    · rw [significant_cons _ hq (by simp)]
      rfl
    · exact fun hc => ⟨.token hc, q.peek, by simp, rfl, (Lined.token hc).le_getLast⟩

theorem matcherRest_parses (kind : MatchKind) (start : Span) (q : Parser) :
    Parses [.pattern] q (matcherRest kind start q) (fun c r => ReadsPattern c kind start r.1) := by
  cases hq : q.peekKind with
  | atom pat => exact .shift [.bracket] (by rw [hq]; rfl) (by simp [hq]) fun _ _ => matcherRest_atom hq
  | _ =>
    rw [matcherRest, hq]
    exact .fail (by rw [hq]; rfl)

theorem parseMatcher_parses (p : Parser) : Parses [.matcher] p (parseMatcher p) (fun c r => Part.matcher.Reads c r.1) := by
  have hsign {kind : MatchKind} {sign : TokenKind} (hp : p.peekKind = sign) (ha : matcher.action sign = .shift [.pattern])
      (hsign : sign ≠ .eof ∧ sign ≠ .sep ∧ sign ≠ .comma) (hkind : kind.marker = [sign]) :
      Parses [.matcher] p (matcherRest kind p.peek.span p.bump) (fun c r => Part.matcher.Reads c r.1) := by
    refine .shift [.pattern] (by rw [hp, ha]) (by rw [hp]; exact hsign.1) fun _ _ => (matcherRest_parses _ _ _).mono ?_
    rintro c ⟨m, q⟩ ⟨rfl, ⟨ks, hks, hprints⟩, hspans⟩
    refine ⟨by simp, ⟨ks, hks, ?_⟩, ?_⟩
    · rw [significant_cons c hp hsign.2, hprints, hkind]
      rfl
    · intro hc
      obtain ⟨hlined, t, ht, hspan, hle⟩ := hspans (Sorted.right (c := [p.peek]) hc)
      obtain ⟨hencloses, hlined'⟩ := (hlined.skip hc).encloses hc hle ⟨t, mem_cons_of_mem _ ht, rfl⟩
      rw [← hspan] at hencloses hlined'
      exact ⟨hlined', hencloses⟩
  rw [parseMatcher_eq, parseMatchKind]
  cases hp : p.peekKind with
  | equals => exact hsign hp rfl (by simp) rfl
  | atom a =>
    simp only
    split
    · rename_i htilde
      exact hsign hp (by rw [htilde]; rfl) (by simp) (by rw [htilde]; rfl)
    · rename_i htilde
      refine .shift [.bracket] (by rw [hp, action, if_neg htilde]) (by simp [hp]) fun _ _ => (matcherRest_atom hp).mono ?_
      rintro c ⟨m, q⟩ ⟨hkind, ⟨ks, hks, hprints⟩, hspans⟩
      refine ⟨by simp, ⟨ks, hks, ?_⟩, ?_⟩
      · rw [hprints, hkind]
        rfl
      · intro hc
        obtain ⟨hlined, t, ht, hspan, hle⟩ := hspans hc
        obtain ⟨hencloses, hlined'⟩ := hlined.encloses hc hle ⟨t, ht, rfl⟩
        rw [← hspan] at hencloses hlined'
        exact ⟨hlined', hencloses⟩
  | _ =>
    rw [matcherRest, hp]
    exact .fail (by rw [hp]; rfl)

theorem parseStepArgsFuel_parses (n : Nat) {β : Type} {p : Parser} {k : List Arg × Parser → Except Failure (β × Parser)}
    {S : List Token → β × Parser → Prop} (hn : p.tokens.length + 1 ≤ n)
    (hk : Closes Part.arg .rParen "expected `)` to close arguments" k S) :
    Parses [.stepArgs] p (parseStepArgsFuel n p >>= k) S := by
  induction n generalizing p k S with
  | zero => omega
  | succ n ih =>
    rw [parseStepArgsFuel]
    refine .seps rfl ?_
    intro s hs hlen
    split
    · rename_i hclose
      exact hk.parses (.nil hs) rfl (by simp) hclose
    · rename_i hclose
      simp only [bind_assoc]
      have ha : stepArgs.action p.skipSeps.peekKind = argThen [.moreArgs] p.skipSeps.peekKind := by
        rw [action, if_neg (skipSeps_peekKind_ne p), if_neg hclose]
      refine parseArg_parses ha ?_
      intro c arg q harg hlen1
      exact parses_more (fun _ => rfl) (by simp) hk hs harg (fun hk hlen2 => ih (by omega) hk)

theorem parseStep_parses {pre : List Token} (hpre : significant pre = [.arrow]) (p : Parser) :
    Parses [.step] p.skipSeps (parseStep p.skipSeps) (fun c r => Part.step.Reads (pre ++ c) r.1 ∧ c ≠ []) := by
  rw [parseStep]
  cases hp : p.skipSeps.peekKind with
  | sep => exact absurd hp (skipSeps_peekKind_ne p)
  | atom name =>
    refine .shift [.parens] (by rw [hp]; rfl) (by simp [hp]) ?_
    intro hlen _
    simp only
    split
    · rename_i hq
      refine .shift [.stepArgs] (by rw [hq]; rfl) (by simp [hq]) ?_
      intro hlen1 _
      refine parseStepArgsFuel_parses _ (by omega) ⟨?_, ?_⟩
      · intro c args r hargs hr
        simp only [if_pos hr]
        refine ⟨_, rfl, ⟨by simp, ?_, ?_⟩, by simp⟩
        · rw [significant_append, hpre, significant_cons _ hp (by simp), significant_cons _ hq (by simp),
            significant_append, significant_cons [] hr (by simp)]
          exact .parens ⟨name, _⟩ _ hargs.prints
        · intro hc
          have hstep : Sorted (p.skipSeps.peek :: p.skipSeps.bump.peek :: (c ++ [r.peek])) := hc.right
          have hinner : Sorted (p.skipSeps.bump.peek :: (c ++ [r.peek])) := Sorted.right (c := [p.skipSeps.peek]) hstep
          have hlist : Sorted (c ++ [r.peek]) := Sorted.right (c := [p.skipSeps.bump.peek]) hinner
          obtain ⟨hspans, hnested⟩ := hargs.spans hlist.left
          have hlined := ((hspans.close hlist).skip hinner).keep hstep
          obtain ⟨hencloses, hlined'⟩ := Lined.encloses_close (c := p.skipSeps.bump.peek :: c) hlined hstep
          exact ⟨Lined.nil.append hlined' hc, hencloses, hnested⟩
      · intro args q hq
        simp only [if_neg hq]
        rfl
    · rename_i hq
      refine .pop (by rw [action, if_neg hq]) (.done ⟨⟨by simp, ?_, ?_⟩, by simp⟩)
      · rw [significant_append, hpre, significant_cons _ hp (by simp)]
        exact .plain ⟨name, _⟩ _
      · intro hc
        obtain ⟨hencloses, hlined⟩ := (Lined.token hc.right).encloses_getLast hc.right
        exact ⟨Lined.nil.append hlined hc, hencloses, by simp⟩
  | _ => exact .fail (by rw [hp]; rfl)

theorem parseStepsFuel_parses (n : Nat) (p : Parser) (hn : p.tokens.length + 1 ≤ n) :
    Parses [.steps] p (parseStepsFuel n p) (fun c r => Part.step.ReadsAll c r.1) := by
  induction n generalizing p with
  | zero => omega
  | succ n ih =>
    rw [parseStepsFuel]
    refine .seps rfl ?_
    intro s hs hlen
    split
    · rename_i hp
      refine .shift [.step, .steps] (by rw [hp]; rfl) (by simp [hp]) ?_
      intro hlen1 _
      refine .seps rfl ?_
      intro s' hs' hlen2
      have hpre : significant (p.skipSeps.peek :: s') = [.arrow] := by
        rw [significant_cons s' hp (by simp), significant_eq_nil hs']
      refine .bind [.steps] (parseStep_parses hpre _) ?_
      rintro c step q ⟨hstep, hc⟩ hlen3
      have hpos := length_pos_iff.mpr hc
      refine (ih q (by omega)).map ?_
      intro c' steps r hsteps
      have := (hsteps.cons hstep).pad hs
      exact ⟨_, rfl, by simpa using this⟩
    · rename_i hp
      refine .pop ?_ (.done (.nil (by simpa using hs)))
      rw [action, if_neg (skipSeps_peekKind_ne p), if_neg hp]

theorem parseRoute_parses {p : Parser} (hp : p.peekKind = .atom "route") :
    Parses [.matcher, .steps] p.bump (parseRoute p) (fun c r => Part.route.Reads (p.peek :: c) r.1) := by
  refine .bind [.steps] (parseMatcher_parses _) ?_
  intro c matcher q hmatcher _
  refine (parseStepsFuel_parses _ q le_rfl).map ?_
  intro c' steps r hsteps
  refine ⟨_, rfl, by simp, ⟨_, _, hmatcher.prints, hsteps.prints, ?_⟩, ?_⟩
  · rw [significant_cons _ hp (by simp), significant_append]
  · intro hc
    have hsorted : Sorted (c ++ c') := Sorted.right (c := [p.peek]) hc
    obtain ⟨hspan, hnested⟩ := hmatcher.spans hsorted.left
    obtain ⟨hspans, hnested'⟩ := hsteps.spans hsorted.right
    have hparts : Lined (c ++ c') (matcher.span :: steps.map Part.step.span) := hspan.append hspans hsorted
    obtain ⟨hencloses, hlined⟩ := (hparts.skip hc).encloses_getLast hc
    simp only [getLast?_map, Option.map_map] at hencloses hlined
    exact ⟨hlined, hencloses, hnested, hnested'⟩

/-! ## Statements -/

theorem block_reads {p q r : Parser} {kw : Str} {args : List Arg} {body : List Stmt} {c c' : List Token} {e : Token}
    (hp : p.peekKind = .atom kw) (hargs : Part.arg.ReadsAll c args) (hq : q.peekKind = .lBrace)
    (hbody : Part.stmt.ReadsAll c' body) (he : e.kind = .rBrace) (hprev : r.prevSpan = e.span) :
    Part.stmt.Reads (p.peek :: (c ++ q.peek :: (c' ++ [e])))
      (.block ⟨kw, p.peek.span⟩ args body (spanTo p.peek.span r.prevSpan.stop)) := by
  refine ⟨by simp, ?_, ?_⟩
  · rw [significant_cons _ hp (by simp), significant_append, significant_cons _ hq (by simp), significant_append,
      significant_cons [] he (by simp)]
    exact @Stmt.Prints.block ⟨kw, _⟩ _ _ _ _ _ hargs.prints hbody.prints
  · intro hc
    have hparts : Sorted (c ++ q.peek :: (c' ++ [e])) := Sorted.right (c := [p.peek]) hc
    have hblock : Sorted (q.peek :: (c' ++ [e])) := hparts.right
    have hlist : Sorted (c' ++ [e]) := Sorted.right (c := [q.peek]) hblock
    obtain ⟨hspans, hnested⟩ := hargs.spans hparts.left
    obtain ⟨hspans', hnested'⟩ := hbody.spans hlist.left
    have hinner := (hspans.append ((hspans'.close hlist).skip hblock) hparts).keep hc
    have hshape : c ++ q.peek :: (c' ++ [e]) = (c ++ q.peek :: c') ++ [e] := by simp
    rw [hshape] at hc hinner ⊢
    obtain ⟨hencloses, hlined⟩ := hinner.encloses_close hc
    rw [← hprev] at hencloses hlined
    exact ⟨hlined, .block hencloses hnested hnested'⟩

/-- How a list of statements ends. -/
def StmtsEnd (inBlock : Bool) (e : List Token) (q : Parser) : Prop :=
  if inBlock then ∃ t, e = [t] ∧ t.kind = .rBrace ∧ q.prevSpan = t.span else e = [] ∧ q.peekKind = .eof

theorem parseStmtsFuel_parses (n : Nat) :
    (∀ inBlock p, 2 * p.tokens.length + 2 ≤ n → Parses [.stmts inBlock] p (parseStmtsFuel n inBlock p)
      (fun c r => ∃ c' e, c = c' ++ e ∧ Part.stmt.ReadsAll c' r.1 ∧ StmtsEnd inBlock e r.2)) ∧
    ∀ (inBlock : Bool) {β : Type} {p : Parser} {k : Stmt × Parser → Except Failure (β × Parser)}
      {S : List Token → β × Parser → Prop}, p.peekKind ∉ [.sep, .eof, .rBrace] → 2 * p.tokens.length + 1 ≤ n →
      (∀ c s q, Part.stmt.Reads c s → q.tokens.length < p.tokens.length →
        Parses [.stmts inBlock] q (k (s, q)) (fun c' r => S (c ++ c') r)) →
      Parses [.stmts inBlock] p (parseStmtFuel n p >>= k) S := by
  induction n with
  | zero => exact ⟨fun _ _ hn => by omega, fun _ _ hn => by omega⟩
  | succ n ih =>
    constructor
    · intro inBlock p hn
      rw [parseStmtsFuel]
      refine .seps rfl ?_
      intro s hs hlen
      simp only
      split
      · rename_i hp
        cases inBlock with
        | true => exact .fail (by rw [hp]; rfl)
        | false => exact .pop (by rw [hp]; rfl) (.done ⟨s, [], rfl, .nil hs, rfl, hp⟩)
      · rename_i hp
        cases inBlock with
        | true =>
          exact .shift [] (by rw [hp]; rfl) (by simp [hp]) fun _ hprev =>
            .done ⟨s, [p.skipSeps.peek], rfl, .nil hs, _, rfl, hp, hprev⟩
        | false => exact .fail (by rw [hp]; rfl)
      · rename_i heof hbrace
        refine ih.2 inBlock (by simpa using ⟨skipSeps_peekKind_ne p, heof, hbrace⟩) (by omega) ?_
        intro c stmt q hstmt hlen1
        refine (ih.1 inBlock q (by omega)).map ?_
        rintro _ stmts r ⟨c', e, rfl, hstmts, hend⟩
        exact ⟨_, rfl, s ++ (c ++ c'), e, by simp, (hstmts.cons hstmt).pad hs, hend⟩
    · intro inBlock β p k S hp hn hk
      rw [parseStmtFuel]
      cases hkind : p.peekKind with
      | sep => simp [hkind] at hp
      | eof => simp [hkind] at hp
      | rBrace => simp [hkind] at hp
      | atom kw =>
        simp only
        split
        · rename_i hroute
          refine .shift [.matcher, .steps, .stmts inBlock] (by rw [hkind, action, if_pos hroute]) (by simp [hkind]) ?_
          intro hlen _
          rw [hroute] at hkind
          rw [bind_assoc]
          refine .bind [.stmts inBlock] (parseRoute_parses hkind) ?_
          intro c r q hr hlen1
          have hstmt : Part.stmt.Reads (p.peek :: c) (.route r) :=
            ⟨by simp, .route hr.prints, fun hc => ⟨(hr.spans hc).1, .route (hr.spans hc).2⟩⟩
          exact hk _ _ q hstmt (by omega)
        · rename_i hroute
          refine .shift [.spaceArgs, .body, .stmts inBlock] (by rw [hkind, action, if_neg hroute]) (by simp [hkind]) ?_
          intro hlen _
          rw [bind_assoc]
          refine .bind [.body, .stmts inBlock] (parseSpaceArgsFuel_parses _ p.bump le_rfl) ?_
          intro c args q hargs hlen1
          simp only
          split
          · rename_i hbrace
            refine .shift [.stmts true] (by rw [hbrace]; rfl) (by simp [hbrace]) ?_
            intro hlen2 _
            rw [bind_assoc]
            refine .bind [.stmts inBlock] (ih.1 true q.bump (by omega)) ?_
            rintro _ body r ⟨c', _, rfl, hbody, e, rfl, he, hprev⟩ hlen3
            have hrest := hk _ _ r (block_reads hkind hargs hbrace hbody he hprev) (by omega)
            simp only [cons_append, append_assoc] at hrest ⊢
            exact hrest
          · rename_i hbrace
            have hstmt : Part.stmt.Reads (p.peek :: c) (.directive ⟨⟨kw, p.peek.span⟩, args,
                spanTo p.peek.span ((args.getLast?.map (·.span.stop)).getD p.peek.span.stop)⟩) := by
              refine ⟨by simp, ?_, ?_⟩
              · rw [significant_cons _ hkind (by simp)]
                exact .directive (d := ⟨⟨kw, _⟩, args, _⟩) hargs.prints
              · intro hc
                obtain ⟨hspans, hnested⟩ := hargs.spans (Sorted.right (c := [p.peek]) hc)
                obtain ⟨hencloses, hlined⟩ := (hspans.keep hc).encloses_getLast hc
                simp only [getLast?_map, Option.map_map] at hencloses hlined
                exact ⟨hlined, .directive hencloses hnested⟩
            exact .pop (by rw [action, if_neg hbrace]) (hk _ _ q hstmt (by omega))
      | _ => exact .fail (by rw [hkind]; rfl)

end Parser

theorem parseTokens_parses (tokens : List Token) :
    Parser.Stuck [.stmts false] ⟨(tokens.headD ⟨.eof, ⟨0, 0, 1, 1⟩⟩).span, tokens⟩ ∨
      run [.stmts false] tokens = (parseTokens tokens).map (fun _ => ()) ∧ parseTokens tokens ≠ .error .outOfFuel := by
  refine ((Parser.parseStmtsFuel_parses (2 * tokens.length + 2)).1 false
    ⟨(tokens.headD ⟨.eof, ⟨0, 0, 1, 1⟩⟩).span, tokens⟩ le_rfl).imp_right ?_
  rintro ⟨hok, herror⟩
  rw [parseTokens]
  cases hres : Parser.parseStmtsFuel (2 * tokens.length + 2) false ⟨(tokens.headD ⟨.eof, ⟨0, 0, 1, 1⟩⟩).span, tokens⟩ with
  | error e =>
    obtain ⟨hfuel, hrun⟩ := herror e hres
    exact ⟨hrun [], fun h => hfuel (Except.error.inj h)⟩
  | ok r => exact ⟨((hok r hres).run []).trans (run_nil r.2.tokens), by rintro ⟨⟩⟩

theorem EndsOnce.not_stuck {p : Parser} (h : EndsOnce p.tokens) (frames : List Frame) : ¬ p.Stuck frames :=
  fun hstuck => Machine.run_ne_panic h _ (hstuck [.stmts false] (by simp))

theorem run_eq_of_endsOnce (h : EndsOnce tokens) : run [.stmts false] tokens = (parseTokens tokens).map (fun _ => ()) :=
  ((parseTokens_parses tokens).resolve_left (EndsOnce.not_stuck h _)).1

/-- What the machine refuses is refused by the parser, also where the tokens have no end. -/
theorem parseTokens_ne_ok {d : Diagnostic} (h : run [.stmts false] tokens = .error (.diag d)) (ast : Ast) :
    parseTokens tokens ≠ .ok ast := by
  intro hast
  rcases parseTokens_parses tokens with hstuck | ⟨hrun, -⟩
  · have := hstuck [.stmts false] (by simp)
    rw [Machine.run_append_diag h] at this
    cases this
  · rw [h, hast] at hrun
    cases hrun

theorem parseTokens_reads {ast : Ast} (h : EndsOnce tokens) (hast : parseTokens tokens = .ok ast) :
    ∃ c e, tokens = c ++ [e] ∧ e.kind = .eof ∧ Part.stmt.ReadsAll c ast.stmts := by
  obtain ⟨⟨stmts, r⟩, hstmts, hr⟩ := Lib.bind_eq_ok.mp hast
  cases hr
  obtain ⟨hends, ⟨_, htokens, c, _, rfl, hreads, rfl, hend⟩, -⟩ :=
    (((Parser.parseStmtsFuel_parses _).1 false _ le_rfl).resolve_left (EndsOnce.not_stuck h _)).1 _ hstmts
  obtain ⟨init, e, hrest, he, hinit⟩ := hends h
  cases init with
  | nil =>
    rw [hrest, append_nil] at htokens
    exact ⟨c, e, htokens, he, hreads⟩
  | cons t init =>
    rw [Parser.peekKind_cons hrest] at hend
    exact absurd hend (hinit t mem_cons_self)

/-! ## Texts -/

theorem lex_endsOnce (h : lex text = .ok tokens) : EndsOnce tokens := by
  rw [lex_eq_scan] at h
  obtain ⟨init, rfl, hinit⟩ := (scan_cut h).eof_last
  exact ⟨init, _, rfl, rfl, hinit⟩

theorem lex_sorted {c : List Token} {e : Token} (h : lex text = .ok (c ++ [e])) (hc : ∀ t ∈ c, t.kind ≠ .eof) : Sorted c := by
  rw [lex_eq_scan] at h
  have hcut := scan_cut h
  constructor
  · exact (pairwise_append.mp hcut.inOrder).1.imp And.right
  · intro t ht
    obtain ⟨u, body, r, -, hspan, hkind⟩ := hcut.parts t (mem_append_left [e] ht)
    have hbody : body ≠ [] := by
      rintro rfl
      have := hkind (hc t ht)
      simp [kinds_nil] at this
    have := bytes_pos hbody
    simp only [hspan, spanAt, Span.stop]
    omega

/-! ## Patterns -/

theorem Route.Prints.pattern_mem {r : Route} {ks : List TokenKind} (h : r.Prints ks) : .atom r.matcher.pattern.node ∈ ks := by
  obtain ⟨_, steps, ⟨preds, -, rfl⟩, -, rfl⟩ := h
  simp

mutual

theorem Stmt.Prints.patterns_mem : {s : Stmt} → {ks : List TokenKind} → s.Prints ks → ∀ pat ∈ s.patterns, .atom pat ∈ ks
  | _, _, .directive _ => by simp [Stmt.patterns]
  | _, _, .route h => by simpa [Stmt.patterns] using h.pattern_mem
  | _, _, .block _ hbody => fun pat hpat => by simp [patternsAll_mem hbody pat hpat]

theorem patternsAll_mem : {ss : List Stmt} → {ks : List TokenKind} → PrintsEach Stmt.Prints ss ks →
    ∀ pat ∈ Stmt.patterns.patternsAll ss, .atom pat ∈ ks
  | _, _, .nil => by simp [Stmt.patterns.patternsAll]
  | _, _, .cons h hs => fun pat hpat => by
    rw [Stmt.patterns.patternsAll, mem_append] at hpat
    rcases hpat with hpat | hpat
    · exact mem_append_left _ (h.patterns_mem pat hpat)
    · exact mem_append_right _ (patternsAll_mem hs pat hpat)

end

theorem parse_patterns {ast : Ast} (h : parse text = .ok ast) :
    ∀ pat ∈ Stmt.patterns.patternsAll ast.stmts, ∀ c ∈ pat, isAtomEnd c = false := by
  intro pat hpat
  obtain ⟨tokens, hlex, hast⟩ := Lib.bind_eq_ok.mp h
  obtain ⟨c, e, rfl, he, hreads⟩ := parseTokens_reads (lex_endsOnce hlex) hast
  have hkinds := lex_kinds text
  rw [hlex] at hkinds
  obtain ⟨init, heq, hinner⟩ := kinds_inner hkinds.symm
  have hmem : .atom pat ∈ c.map Token.kind := mem_of_mem_filter (patternsAll_mem hreads.prints pat hpat)
  have hinit : c.map Token.kind = init := by
    simp only [map_append] at heq
    exact (append_inj' heq rfl).1
  exact (hinner _ (hinit ▸ hmem)).2 pat rfl

end Pulsate.Flow
