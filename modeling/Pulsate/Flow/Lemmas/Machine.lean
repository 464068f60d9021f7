import Pulsate.Flow.Machine
import Pulsate.Lib.Except

/-!
# Where the machine fails

It fails where nothing that could come next would help, and what it has read before can be completed.
-/

namespace Pulsate.Flow

open List Lib Pulsate.Flow.Frame

namespace Machine

variable {stack : List Frame} {t : Token} {tokens pre : List Token}

@[simp] theorem run_nil (tokens : List Token) : run [] tokens = .ok () := by
  cases tokens <;> rfl

theorem run_cons (f : Frame) (stack : List Frame) (t : Token) (tokens : List Token) :
    run (f :: stack) (t :: tokens) =
      match f.action t.kind with
      | .shift frames => run (frames ++ stack) tokens
      | .pop => run stack (t :: tokens)
      | .fail code message => .error (.diag (Diagnostic.error code message t.span)) := by
  rw [run, step]
  cases f.action t.kind with
  | shift frames => rfl
  | pop =>
    cases stack with
    | nil => cases tokens <;> rfl
    | cons g stack => rfl
  | fail code message => rfl

end Machine

/-! ## Failures -/

namespace Machine

theorem action_shift {f : Frame} {kind : TokenKind} {gs : List Frame} (h : f.action kind = .shift gs) :
    (∀ g ∈ gs.tail, g.isEager = false) ∧
      if f = .stmts false then ∃ hs, gs = hs ++ [.stmts false] ∧ .stmts false ∉ hs else .stmts false ∉ gs := by
  have hvalue {frames : List Frame} (h : valueThen frames kind = .shift gs) : gs = frames ∨ gs = .items :: frames := by
    rw [valueThen.eq_def] at h
    split at h <;> cases h <;> simp
  have harg {frames : List Frame} (h : argThen frames kind = .shift gs) :
      gs = .assign :: frames ∨ gs = frames ∨ gs = .items :: frames := by
    rw [argThen.eq_def] at h
    split at h
    · cases h
      exact .inl rfl
    · exact .inr (hvalue h)
  have hmore {self next : Frame} {close : TokenKind} {message : Str} (h : more self next close message kind = .shift gs) :
      gs = [self] ∨ gs = [next] ∨ gs = [] := by
    rw [more] at h
    split at h
    · cases h
      exact .inl rfl
    split at h
    · cases h
      exact .inr (.inl rfl)
    split at h
    · cases h
      exact .inr (.inr rfl)
    · cases h
  cases f with
  | stmts inBlock =>
    cases inBlock with
    | true =>
      simp only [action] at h
      split at h
      · cases h; simp
      · cases h
      · cases h; simp
      · split at h <;> cases h <;> simp [isEager]
      · cases h
    | false =>
      simp only [action] at h
      split at h
      · cases h; exact ⟨by simp, [], rfl, by simp⟩
      · cases h
      · cases h
      · split at h
        · cases h; exact ⟨by simp [isEager], [.matcher, .steps], rfl, by simp⟩
        · cases h; exact ⟨by simp [isEager], [.spaceArgs, .body], rfl, by simp⟩
      · cases h
  | value => rcases hvalue h with rfl | rfl <;> simp
  | items =>
    simp only [action] at h
    split at h
    · cases h; simp
    split at h
    · cases h; simp
    · rcases hvalue h with rfl | rfl <;> simp [isEager]
  | stepArgs =>
    simp only [action] at h
    split at h
    · cases h; simp
    split at h
    · cases h; simp
    · rcases harg h with rfl | rfl | rfl <;> simp [isEager]
  | spaceArgs =>
    simp only [action] at h
    split at h
    case h_5 => cases h
    all_goals rcases harg h with rfl | rfl | rfl <;> simp [isEager]
  | moreItems => rcases hmore h with rfl | rfl | rfl <;> simp
  | morePreds => rcases hmore h with rfl | rfl | rfl <;> simp
  | moreArgs => rcases hmore h with rfl | rfl | rfl <;> simp
  | body | assign | bracket | parens =>
    simp only [action] at h
    split at h
    · cases h; simp
    · cases h
  | pattern | preds | step =>
    simp only [action] at h
    split at h <;> cases h <;> simp [isEager]
  | matcher =>
    simp only [action] at h
    split at h
    · cases h; simp
    · split at h <;> cases h <;> simp
    · cases h
  | steps =>
    simp only [action] at h
    split at h
    · cases h; simp
    split at h
    · cases h; simp [isEager]
    · cases h

theorem Stacked.step {stack' : List Frame} (h : Stacked stack) (hs : step t stack = .ok stack') :
    stack' = [] ∨ Stacked stack' := by
  induction stack with
  | nil =>
    cases hs
    exact .inl rfl
  | cons f stack ih =>
    obtain ⟨⟨frames, hframes, hbottom⟩, htail⟩ := h
    rw [Machine.step] at hs
    cases ha : f.action t.kind with
    | fail code message =>
      rw [ha] at hs
      cases hs
    | pop =>
      rw [ha] at hs
      cases frames with
      | nil =>
        obtain ⟨rfl, rfl⟩ := List.cons.inj hframes
        cases hs
        exact .inl rfl
      | cons g frames =>
        obtain ⟨rfl, rfl⟩ := List.cons.inj hframes
        rw [mem_cons, not_or] at hbottom
        exact ih ⟨⟨frames, rfl, hbottom.2⟩, fun g hg => htail g (mem_of_mem_tail hg)⟩ hs
    | shift gs =>
      rw [ha] at hs
      cases hs
      obtain ⟨heager, hnew⟩ := action_shift ha
      refine .inr ⟨?_, ?_⟩
      · cases frames with
        | nil =>
          obtain ⟨rfl, rfl⟩ := List.cons.inj hframes
          rw [if_pos rfl] at hnew
          rwa [append_nil]
        | cons g frames =>
          obtain ⟨rfl, rfl⟩ := List.cons.inj hframes
          rw [mem_cons, not_or] at hbottom
          rw [if_neg (Ne.symm hbottom.1)] at hnew
          exact ⟨gs ++ frames, by simp, by simp [hnew, hbottom.2]⟩
      · intro g hg
        cases gs with
        | nil => exact htail g (mem_of_mem_tail hg)
        | cons g' gs =>
          rcases mem_append.mp hg with hg | hg
          · exact heager g hg
          · exact htail g hg

theorem step_error {e : Failure} (h : step t stack = .error e) : ∃ d, e = .diag d ∧ d.span = t.span := by
  induction stack with
  | nil => cases h
  | cons f stack ih =>
    rw [Machine.step] at h
    cases ha : f.action t.kind with
    | shift gs =>
      rw [ha] at h
      cases h
    | pop =>
      rw [ha] at h
      exact ih h
    | fail code message =>
      rw [ha] at h
      cases h
      exact ⟨_, rfl, rfl⟩

/-- Where the machine fails, it has read the tokens before as if they could be continued, and it fails whatever comes behind. -/
theorem run_fails {d : Diagnostic} (hstack : Stacked stack) (h : run stack tokens = .error (.diag d)) :
    ∃ pre t post stack', tokens = pre ++ t :: post ∧ d.span = t.span ∧ Stacked stack' ∧
      (∀ more, run stack (pre ++ more) = run stack' more) ∧ ∀ more, run stack (pre ++ t :: more) = .error (.diag d) := by
  induction tokens generalizing stack with
  | nil =>
    cases stack with
    | nil => cases h
    | cons f stack => cases h
  | cons t tokens ih =>
    cases stack with
    | nil => cases h
    | cons f stack =>
      have hrun (more : List Token) : run (f :: stack) (t :: more) = step t (f :: stack) >>= fun stack => run stack more := rfl
      rw [hrun] at h
      cases hs : step t (f :: stack) with
      | error e =>
        rw [hs] at h
        cases h
        obtain ⟨d', hd, hspan⟩ := step_error hs
        cases hd
        exact ⟨[], t, tokens, f :: stack, rfl, hspan, hstack, fun _ => rfl,
          fun more => by rw [nil_append, hrun, hs]; rfl⟩
      | ok stack₁ =>
        rw [hs] at h
        rcases hstack.step hs with rfl | hstack₁
        · rw [ok_bind, run_nil] at h
          cases h
        · obtain ⟨pre, t', post, stack', rfl, hspan, hstack', hread, hfail⟩ := ih hstack₁ h
          refine ⟨t :: pre, t', post, stack', rfl, hspan, hstack', ?_, ?_⟩
          · intro more
            rw [cons_append, hrun, hs, ok_bind, hread]
          · intro more
            rw [cons_append, hrun, hs, ok_bind, hfail]

theorem run_append_diag {more : List Frame} {d : Diagnostic} (h : run stack tokens = .error (.diag d)) :
    run (stack ++ more) tokens = .error (.diag d) := by
  induction tokens generalizing stack with
  | nil => cases stack <;> cases h
  | cons t tokens ih =>
    induction stack with
    | nil => cases h
    | cons f stack ih' =>
      rw [run_cons] at h
      rw [cons_append, run_cons]
      cases ha : f.action t.kind with
      | shift gs =>
        rw [ha] at h
        have hread := @ih (gs ++ stack) h
        rwa [append_assoc] at hread
      | pop =>
        rw [ha] at h
        exact ih' h
      | fail code message =>
        rw [ha] at h
        exact h

/-- The end of input is never passed. -/
theorem step_eof {stack' : List Frame} (ht : t.kind = .eof) (h : step t stack = .ok stack') : stack' = [] := by
  induction stack with
  | nil =>
    cases h
    rfl
  | cons f stack ih =>
    rw [Machine.step, ht] at h
    cases f with
    | stmts inBlock =>
      cases inBlock with
      | true => cases h
      | false => exact ih h
    | body | spaceArgs | assign | bracket | steps | parens => exact ih h
    | _ => cases h

theorem run_error {e : Failure} (h : run stack tokens = .error e) : e = .panic ∨ ∃ d, e = .diag d := by
  induction tokens generalizing stack with
  | nil =>
    cases stack with
    | nil => cases h
    | cons f stack =>
      cases h
      exact .inl rfl
  | cons t tokens ih =>
    cases stack with
    | nil => cases h
    | cons f stack =>
      rcases bind_eq_error.mp h with h | ⟨stack', -, h⟩
      · obtain ⟨d, rfl, -⟩ := step_error h
        exact .inr ⟨d, rfl⟩
      · exact ih h

theorem run_ne_panic (h : EndsOnce tokens) (stack : List Frame) : run stack tokens ≠ .error .panic := by
  obtain ⟨init, e, rfl, he, -⟩ := h
  induction init generalizing stack with
  | nil =>
    cases stack with
    | nil => simp
    | cons f stack =>
      intro h
      rcases bind_eq_error.mp h with h | ⟨stack', hs, h⟩
      · obtain ⟨d, hd, -⟩ := step_error h
        cases hd
      · rw [step_eof he hs] at h
        cases h
  | cons t init ih =>
    cases stack with
    | nil => simp
    | cons f stack =>
      intro h
      rcases bind_eq_error.mp h with h | ⟨stack', hs, h⟩
      · obtain ⟨d, hd, -⟩ := step_error h
        cases hd
      · exact ih stack' h

/-! ## Completions -/

theorem run_tokensOf_cons (f : Frame) (stack : List Frame) (kind : TokenKind) (kinds : List TokenKind) :
    run (f :: stack) (tokensOf (kind :: kinds)) =
      match f.action kind with
      | .shift frames => run (frames ++ stack) (tokensOf kinds)
      | .pop => run stack (tokensOf (kind :: kinds))
      | .fail code message => .error (.diag (Diagnostic.error code message ⟨0, 0, 1, 1⟩)) := by
  rw [tokensOf, map_cons, run_cons]
  rfl

theorem run_close {frames : List Frame} (hbottom : .stmts false ∉ frames) (hbegun : ∀ f ∈ frames, f.isEager = false) :
    run (frames ++ [.stmts false]) (tokensOf ((frames ++ [stmts false]).flatMap close)) = .ok () ∧
      ∃ kind kinds, (frames ++ [stmts false]).flatMap close = kind :: kinds ∧
        kind ∈ [.eof, .rBrace, .rBracket, .rParen] := by
  induction frames with
  | nil => exact ⟨rfl, .eof, [], rfl, by simp⟩
  | cons f frames ih =>
    rw [mem_cons, not_or] at hbottom
    rw [forall_mem_cons] at hbegun
    obtain ⟨hrun, kind, kinds, hflat, hkind⟩ := ih hbottom.2 hbegun.2
    cases f with
    | stmts inBlock =>
      cases inBlock with
      | true => exact ⟨hrun, .rBrace, _, rfl, by simp⟩
      | false => exact absurd rfl hbottom.1
    | items | moreItems | preds | morePreds => exact ⟨hrun, .rBracket, _, rfl, by simp⟩
    | stepArgs | moreArgs => exact ⟨hrun, .rParen, _, rfl, by simp⟩
    | value | matcher | pattern | step => cases hbegun.1
    | body | spaceArgs | assign | bracket | steps | parens =>
      refine ⟨?_, kind, kinds, hflat, hkind⟩
      rw [hflat] at hrun
      show run _ (tokensOf ((frames ++ [stmts false]).flatMap close)) = _
      rw [hflat, cons_append, run_tokensOf_cons]
      simp only [mem_cons, not_mem_nil, or_false] at hkind
      rcases hkind with rfl | rfl | rfl | rfl <;> exact hrun

theorem run_completion (h : Stacked stack) : run stack (completion stack) = .ok () := by
  obtain ⟨⟨frames, rfl, hbottom⟩, htail⟩ := h
  cases frames with
  | nil => rfl
  | cons f frames =>
    have hbegun : ∀ g ∈ frames, g.isEager = false := fun g hg => htail g (by simp [hg])
    have hbottom' := hbottom
    rw [mem_cons, not_or] at hbottom
    by_cases hf : f.isEager
    · have hrest (g : Frame) (hg : g.isEager = false) (hne : .stmts false ≠ g) :=
        (@run_close (g :: frames) (by simp [hne, hbottom.2]) (forall_mem_cons.mpr ⟨hg, hbegun⟩)).1
      cases f with
      | value => exact (run_close hbottom.2 hbegun).1
      | matcher => exact hrest .bracket rfl (by simp)
      | pattern => exact hrest .bracket rfl (by simp)
      | step => exact hrest .parens rfl (by simp)
      | _ => cases hf
    · have hnone : completion (f :: frames ++ [.stmts false]) =
          tokensOf ((f :: frames ++ [stmts false]).flatMap close) := by
        simp [completion, hf]
      rw [hnone]
      exact (run_close hbottom' (forall_mem_cons.mpr ⟨by simpa using hf, hbegun⟩)).1

theorem completion_endsOnce (h : Stacked stack) : EndsOnce (completion stack) := by
  obtain ⟨⟨frames, rfl, hbottom⟩, -⟩ := h
  have hclose : ∀ k ∈ frames.flatMap close, k ≠ .eof := by
    rintro k hk rfl
    obtain ⟨f, hf, hmem⟩ := mem_flatMap.mp hk
    cases f with
    | stmts inBlock =>
      cases inBlock with
      | true => simp [close] at hmem
      | false => exact hbottom hf
    | _ => simp [close] at hmem
  obtain ⟨first, hfirst, hdef⟩ : ∃ first : List TokenKind, TokenKind.eof ∉ first ∧
      completion (frames ++ [.stmts false]) = tokensOf (first ++ frames.flatMap close ++ [.eof]) := by
    refine ⟨if (frames ++ [stmts false]).head?.any isEager then [.atom ['x']] else [], ?_, ?_⟩
    · split <;> simp
    · simp [completion, close]
  refine ⟨tokensOf (first ++ frames.flatMap close), ⟨.eof, ⟨0, 0, 1, 1⟩⟩, ?_, rfl, ?_⟩
  · rw [hdef, tokensOf, map_append]
    rfl
  · intro t ht
    obtain ⟨k, hk, rfl⟩ := mem_map.mp ht
    rcases mem_append.mp hk with hk | hk
    · rintro rfl
      exact hfirst hk
    · exact hclose k hk

end Machine

/-! ## Token lists -/

theorem EndsOnce.append (hpre : ∀ t ∈ pre, t.kind ≠ .eof) (h : EndsOnce tokens) : EndsOnce (pre ++ tokens) := by
  obtain ⟨init, e, rfl, he, hinit⟩ := h
  refine ⟨pre ++ init, e, by simp, he, ?_⟩
  intro t ht
  rcases mem_append.mp ht with ht | ht
  · exact hpre t ht
  · exact hinit t ht

theorem EndsOnce.left {post : List Token} (h : EndsOnce (pre ++ t :: post)) : ∀ u ∈ pre, u.kind ≠ .eof := by
  obtain ⟨init, e, heq, -, hinit⟩ := h
  have hpre : pre <+: init := by
    have hlen := congrArg List.length heq
    simp only [length_append, length_cons, length_nil] at hlen
    exact prefix_of_prefix_length_le ⟨t :: post, rfl⟩ ⟨[e], heq.symm⟩ (by omega)
  exact fun u hu => hinit u (hpre.subset hu)

theorem EndsOnce.right (hpre : ∀ t ∈ pre, t.kind ≠ .eof) (h : EndsOnce (pre ++ tokens)) : EndsOnce tokens := by
  induction pre with
  | nil => exact h
  | cons t pre ih =>
    rw [forall_mem_cons] at hpre
    obtain ⟨init, e, heq, he, hinit⟩ := h
    cases init with
    | nil =>
      obtain ⟨rfl, -⟩ := List.cons.inj heq
      exact absurd he hpre.1
    | cons t' init => exact ih hpre.2 ⟨init, e, (List.cons.inj heq).2, he, fun u hu => hinit u (mem_cons_of_mem _ hu)⟩

theorem Parser.peekKind_cons {p : Parser} {ts : List Token} (h : p.tokens = t :: ts) : p.peekKind = t.kind := by
  rw [peekKind, peek, h, headD_cons]

theorem Parser.nextKind_eq_bump (p : Parser) : p.nextKind = p.bump.peekKind := by
  rw [Parser.nextKind, Parser.bump]
  split <;> rfl

theorem stacked_start : Machine.Stacked [.stmts false] := ⟨⟨[], rfl, by simp⟩, by simp⟩

end Pulsate.Flow
