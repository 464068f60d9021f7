import Pulsate.Flow.Lemmas.Faithful
import Pulsate.Flow.Lemmas.Modes
import Pulsate.Lib.Lists

/-!
# Where tokens and diagnostics are

The column of a span is the number of bytes before it on its line. It is the number of characters only where the two are the
same. Where it is, the rendered diagnostic shows the right line and its caret stands under the right character.
-/

namespace Pulsate.Flow

open List Option Pulsate.Str

variable {text : Str} {d : Diagnostic}

/-! ## Parts of a text -/

theorem newline_notMem_lastLine (pre : Str) : '\n' ∉ lastLine pre := by
  intro h
  simpa using mem_rtakeWhile_imp h

theorem lastLine_cases (pre : Str) : lastLine pre = pre ∧ '\n' ∉ pre ∨ ∃ a, pre = a ++ '\n' :: lastLine pre := by
  induction pre using List.reverseRecOn with
  | nil => exact .inl ⟨rfl, by simp⟩
  | append_singleton pre c ih =>
    rw [lastLine_concat]
    split
    · rename_i hc
      subst hc
      exact .inr ⟨pre, rfl⟩
    · rename_i hc
      rcases ih with ⟨hline, hnot⟩ | ⟨a, ha⟩
      · refine .inl ⟨by rw [hline], ?_⟩
        simp [hnot, Ne.symm hc]
      · refine .inr ⟨a, ?_⟩
        conv_lhs => rw [ha]
        simp

theorem prefix_unique {pre rest pre' rest' : Str} (h : pre ++ rest = pre' ++ rest')
    (hlen : (bytes pre).length = (bytes pre').length) : pre = pre' := by
  have hbytes := congrArg bytes h
  rw [bytes_append, bytes_append] at hbytes
  exact bytes_inj (append_inj_left hbytes hlen)

theorem starts_parts {m : Mode} {pre s p : Str} (h : p ∈ starts m pre s) : ∃ u v, s = u ++ v ∧ p = pre ++ u := by
  induction s generalizing m pre with
  | nil => cases h
  | cons c s ih =>
    rw [starts, mem_append] at h
    rcases h with h | h
    · split at h
      · obtain rfl := mem_singleton.mp h
        exact ⟨[], c :: s, rfl, by simp⟩
      · cases h
    · obtain ⟨u, v, rfl, rfl⟩ := ih h
      exact ⟨c :: u, v, rfl, by simp⟩

theorem reported_parts {p : Str} (h : p ∈ reported text) : ∃ rest, text = p ++ rest := by
  rw [reported] at h
  split at h
  · cases h
  split at h
  · obtain ⟨u, v, rfl, rfl⟩ := starts_parts (mem_of_getLast? (mem_toList.mp h))
    exact ⟨v, rfl⟩
  · rcases mem_append.mp h with h | h
    · obtain ⟨u, v, rfl, rfl⟩ := starts_parts h
      exact ⟨v, rfl⟩
    · obtain rfl := mem_singleton.mp h
      exact ⟨[], by simp⟩

/-! ## Spans -/

theorem spanAt_isAt_iff (pre body : Str) : (spanAt pre body).IsAt pre ↔ Countable pre := by
  have hline : (lineOf pre).toNat = (1 + pre.count '\n') % 2 ^ 32 := UInt32.toNat_ofNat'
  have hcol : (colOf pre).toNat = (1 + (lastLine pre).len) % 2 ^ 32 := by
    rw [len_eq]
    exact UInt32.toNat_ofNat'
  constructor
  · rintro ⟨-, hl, hc⟩
    simp only [spanAt, hline, hcol] at hl hc
    exact ⟨hl ▸ Nat.mod_lt _ (by decide), hc⟩
  · rintro ⟨hl, hc⟩
    refine ⟨(len_eq pre).symm, ?_, ?_⟩
    · simp only [spanAt, hline]
      exact Nat.mod_eq_of_lt hl
    · simp only [spanAt, hcol]
      exact hc

theorem isLocated_iff {pre rest : Str} (body : Str) : (spanAt pre body).IsLocated (pre ++ rest) ↔ Countable pre := by
  rw [← spanAt_isAt_iff pre body]
  constructor
  · rintro ⟨pre', rest', htext, hat⟩
    have hlen : (bytes pre).length = (bytes pre').length := by
      rw [← len_eq pre']
      exact hat.offset
    obtain rfl := prefix_unique htext hlen
    exact hat
  · exact fun hat => ⟨pre, rest, rfl, hat⟩

theorem span_reported {tokens : List Token} (h : lex text = .ok tokens) :
    List.Forall₂ (fun t p => ∃ body, t.span = spanAt p body) tokens (reported text) := by
  have hagrees := lex_agrees text
  rw [h] at hagrees
  obtain ⟨hwide, hopen, hspans⟩ := hagrees
  simpa [reported, hwide, hopen] using hspans

theorem diag_reported (h : lex text = .error (.diag d)) : ∃ p body, reported text = [p] ∧ d.span = spanAt p body := by
  have hagrees := lex_agrees text
  rw [h] at hagrees
  obtain ⟨hwide, hopen, p, body, hlast, -, hspan⟩ := hagrees
  exact ⟨p, body, by simp [reported, hwide, hopen, hlast], hspan⟩

theorem parseTokens_span {tokens : List Token} (h : EndsOnce tokens) (hd : parseTokens tokens = .error (.diag d)) :
    ∃ t ∈ tokens, d.span = t.span := by
  have hrun := run_eq_of_endsOnce h
  rw [hd] at hrun
  obtain ⟨pre, t, post, -, rfl, hspan, -⟩ := Machine.run_fails stacked_start hrun
  exact ⟨t, by simp, hspan⟩

theorem parse_reported (h : parse text = .error (.diag d)) : ∃ p ∈ reported text, ∃ body, d.span = spanAt p body := by
  rcases Lib.bind_eq_error.mp h with h | ⟨tokens, hlex, h⟩
  · obtain ⟨p, body, hp, hspan⟩ := diag_reported h
    exact ⟨p, by simp [hp], body, hspan⟩
  · obtain ⟨t, ht, hspan⟩ := parseTokens_span (lex_endsOnce hlex) h
    obtain ⟨p, hp, body, hbody⟩ := Lib.exists_right_of_forall₂ (span_reported hlex) ht
    exact ⟨p, hp, body, hspan.trans hbody⟩

/-! ## Lines -/

/-- The offsets behind the line breaks. -/
def breaks (start : Nat) (bs : List UInt8) : List Nat :=
  ((bs.zipIdx start).filter (fun b => Char.ofUInt8 b.1 = '\n')).map (·.2 + 1)

theorem breaks_append (start : Nat) (bs bs' : List UInt8) :
    breaks start (bs ++ bs') = breaks start bs ++ breaks (start + bs.length) bs' := by
  simp [breaks, zipIdx_append]

theorem breaks_char (start : Nat) (c : Char) :
    breaks start (String.utf8EncodeChar c) = if c = '\n' then [start + 1] else [] := by
  split
  · rename_i hc
    subst hc
    rfl
  · rename_i hc
    rw [breaks, filter_eq_nil_iff.mpr]
    · rfl
    · rintro ⟨b, i⟩ hb
      simpa using ofUInt8_ne (by decide) hc b (fst_mem_of_mem_zipIdx hb)

theorem breaks_cons (start : Nat) (c : Char) (s : Str) :
    breaks start (bytes (c :: s)) =
      (if c = '\n' then [start + 1] else []) ++ breaks (start + c.utf8Size) (bytes s) := by
  rw [bytes_cons, breaks_append, breaks_char, utf8EncodeChar_length]

theorem breaks_length (start : Nat) (s : Str) : (breaks start (bytes s)).length = s.count '\n' := by
  induction s generalizing start with
  | nil => rfl
  | cons c s ih =>
    rw [breaks_cons, length_append, ih, count_cons, Nat.add_comm]
    by_cases hc : c = '\n' <;> simp [hc]

theorem breaks_eq_nil {s : Str} (h : '\n' ∉ s) (start : Nat) : breaks start (bytes s) = [] := by
  rw [← length_eq_zero_iff, breaks_length, count_eq_zero_of_not_mem h]

theorem breaks_newline (start : Nat) (s : Str) : breaks start (bytes ('\n' :: s)) = (start + 1) :: breaks (start + 1) (bytes s) :=
  breaks_cons start '\n' s

namespace Source

variable (name pre rest : Str)

theorem lineStarts_eq : lineStarts ⟨name, pre ++ rest⟩ =
    0 :: (breaks 0 (bytes pre) ++ breaks (bytes pre).length (bytes rest)) := by
  have h : lineStarts ⟨name, pre ++ rest⟩ = 0 :: breaks 0 (bytes (pre ++ rest)) := rfl
  rw [h, bytes_append, breaks_append, Nat.zero_add]

/-- Where the line that goes on behind `pre` starts. -/
theorem lineStart : ∃ front, pre = front ++ lastLine pre ∧
    (lineStarts ⟨name, pre ++ rest⟩)[pre.count '\n']? = some (bytes front).length := by
  rcases lastLine_cases pre with ⟨hline, hnot⟩ | ⟨a, ha⟩
  · refine ⟨[], by rw [hline]; rfl, ?_⟩
    rw [count_eq_zero_of_not_mem hnot]
    rfl
  · refine ⟨a ++ ['\n'], by rw [append_assoc]; exact ha, ?_⟩
    have hcount : pre.count '\n' = a.count '\n' + 1 := by
      rw [ha, count_append, count_cons_self, count_eq_zero_of_not_mem (newline_notMem_lastLine pre)]
    have hbytes : (bytes (a ++ ['\n'])).length = (bytes a).length + 1 := by
      rw [bytes_append, length_append]
      rfl
    have hbreaks : breaks 0 (bytes pre) = breaks 0 (bytes a) ++ ((bytes a).length + 1) ::
        breaks ((bytes a).length + 1) (bytes (lastLine pre)) := by
      conv_lhs => rw [ha]
      rw [bytes_append, breaks_append, breaks_newline, Nat.zero_add]
    rw [lineStarts_eq, hcount, getElem?_cons_succ, hbreaks, hbytes, ← breaks_length 0 a, append_assoc,
      getElem?_append_right (Nat.le_refl _), Nat.sub_self]
    rfl

/-- Where it ends: behind the next line break. -/
theorem lineStop : ∃ w brk r, rest = w ++ (brk ++ r) ∧ w = rest.takeWhile (· ≠ '\n') ∧ (∀ c ∈ brk, c = '\n') ∧
    ((lineStarts ⟨name, pre ++ rest⟩)[pre.count '\n' + 1]?).getD (len (pre ++ rest)) =
      (bytes (pre ++ (w ++ brk))).length := by
  have hget : (lineStarts ⟨name, pre ++ rest⟩)[pre.count '\n' + 1]? = (breaks (bytes pre).length (bytes rest)).head? := by
    rw [lineStarts_eq, getElem?_cons_succ, ← breaks_length 0 pre, getElem?_append_right (Nat.le_refl _), Nat.sub_self,
      head?_eq_getElem?]
  have hw := notMem_takeWhile_ne '\n' rest
  have hsplit := takeWhile_append_dropWhile (p := fun c : Char => decide (c ≠ '\n')) (l := rest)
  cases hdrop : rest.dropWhile (· ≠ '\n') with
  | nil =>
    rw [hdrop, append_nil] at hsplit
    refine ⟨rest, [], [], by simp, hsplit.symm, by simp, ?_⟩
    rw [hsplit] at hw
    rw [hget, breaks_eq_nil hw, len_eq, append_nil]
    rfl
  | cons c r =>
    obtain rfl := dropWhile_ne_cons hdrop
    rw [hdrop] at hsplit
    refine ⟨rest.takeWhile (· ≠ '\n'), ['\n'], r, hsplit.symm, rfl, by simp, ?_⟩
    have hbreaks : breaks (bytes pre).length (bytes rest) =
        ((bytes pre).length + (bytes (rest.takeWhile (· ≠ '\n'))).length + 1) ::
          breaks ((bytes pre).length + (bytes (rest.takeWhile (· ≠ '\n'))).length + 1) (bytes r) := by
      conv_lhs => rw [← hsplit]
      rw [bytes_append, breaks_append, breaks_eq_nil hw, breaks_newline]
      rfl
    rw [hget, hbreaks, bytes_append, bytes_append, length_append, length_append, ← Nat.add_assoc]
    rfl

theorem trimLine {line brk : Str} (hline : '\n' ∉ line) (hbrk : ∀ c ∈ brk, c = '\n') :
    (line ++ brk).rdropWhile (fun c => c = '\n' || c = '\r') = line.rdropWhile (· = '\r') := by
  induction brk using List.reverseRecOn with
  | nil =>
    rw [append_nil]
    induction line using List.reverseRecOn with
    | nil => rfl
    | append_singleton line c ih =>
      rw [mem_append, not_or] at hline
      have hc : c ≠ '\n' := by
        rintro rfl
        exact hline.2 mem_cons_self
      simp only [rdropWhile_concat, hc, decide_false, Bool.false_or, ih hline.1]
  | append_singleton brk c ih =>
    have hc : c = '\n' := hbrk c (by simp)
    rw [← append_assoc, rdropWhile_concat_pos _ _ _ (by simp [hc])]
    exact ih (fun d hd => hbrk d (by simp [hd]))

/-- The line that holds the character behind `pre`. -/
theorem lineText_eq {line : UInt32} (hline : line.toNat = 1 + pre.count '\n') :
    lineText ⟨name, pre ++ rest⟩ line = some ((lastLine pre ++ rest.takeWhile (· ≠ '\n')).rdropWhile (· = '\r')) := by
  obtain ⟨front, hfront, hstart⟩ := lineStart name pre rest
  obtain ⟨w, brk, r, hrest, hw, hbrk, hstop⟩ := lineStop name pre rest
  have hidx : line.toNat - 1 = pre.count '\n' := by omega
  have htext : pre ++ rest = front ++ ((lastLine pre ++ w ++ brk) ++ r) := by
    conv_lhs => rw [hfront, hrest]
    simp
  have hlen : (bytes (pre ++ (w ++ brk))).length =
      (bytes front).length + (bytes (lastLine pre ++ w ++ brk)).length := by
    conv_lhs => rw [hfront]
    simp only [bytes_append, length_append]
    omega
  have hslice := Lexer.slice_append front (lastLine pre ++ w ++ brk) r
  rw [← htext, ← hlen, ← hstop] at hslice
  have hnot : '\n' ∉ lastLine pre ++ w := by
    rw [mem_append, not_or, hw]
    exact ⟨newline_notMem_lastLine pre, notMem_takeWhile_ne '\n' rest⟩
  rw [lineText, hidx, hstart, getD_some, hslice, map_some, ← hw, trimLine hnot hbrk]

end Source

/-! ## Carets -/

theorem pointsInto_of_isAt {pre rest : Str} (name : Str) (h : d.span.IsAt pre) : d.PointsInto ⟨name, pre ++ rest⟩ := by
  refine ⟨pre, rest, _, rfl, h.offset, Source.lineText_eq name pre rest h.line, rfl, ?_⟩
  have hblank : ∀ c ∈ d.pad ++ " │ " ++ List.replicate (d.span.col.toNat - 1) ' ', decide (c ≠ '^') := by
    intro c hc
    simp only [mem_append, Diagnostic.pad] at hc
    rcases hc with (hc | hc) | hc
    · rw [eq_of_mem_replicate hc]
      rfl
    · exact forall_mem_of_all (P := fun c => decide (c ≠ '^')) (by decide) c hc
    · rw [eq_of_mem_replicate hc]
      rfl
  have hcaret : ∃ carets, d.marked = (d.pad ++ " │ " ++ List.replicate (d.span.col.toNat - 1) ' ') ++ '^' :: carets := by
    refine ⟨List.replicate (max d.span.len 1 - 1) '^', ?_⟩
    have hpos : max d.span.len 1 = max d.span.len 1 - 1 + 1 := by omega
    rw [Diagnostic.marked, Diagnostic.underline, hpos, replicate_succ]
    simp
  obtain ⟨carets, hmarked⟩ := hcaret
  rw [hmarked, takeWhile_append_of_pos hblank, takeWhile_cons_of_neg (by simp), append_nil]
  simp only [Diagnostic.shown, Diagnostic.pad, h.col, length_append, length_replicate, length_nil]
  omega

end Pulsate.Flow
