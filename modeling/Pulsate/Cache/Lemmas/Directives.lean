import Pulsate.Cache.Directives
import Pulsate.Http.Lemmas.Headers

/-!
# How the cache reads header lines

On a line that is a string, the cache finds the items of the grammar.
-/

namespace Pulsate.Cache

open List Str
open Http (HeaderMap HeaderName HeaderValue isVisibleChar visible_text getStr_eq_some containsKey_iff mem_getAll_of_get)
open Lib (OrdMap)

variable {headers : HeaderMap} {config : CacheConfig} {status : Nat}

/-! ## Lines -/

theorem isWhitespace_of_visible {c : Char} (h : isVisibleChar c) : Str.isWhitespace c = isOws c := by
  have hascii : c.toNat < 128 := by
    simp only [isVisibleChar, Bool.or_eq_true, Bool.and_eq_true, decide_eq_true_eq] at h
    rcases h with rfl | ⟨-, h⟩
    · decide
    · omega
  exact forall_ascii (P := fun c => isVisibleChar c → Str.isWhitespace c = isOws c) (by decide) c hascii h

theorem dropWhile_congr {p q : Char → Bool} {s : Str} (h : ∀ c ∈ s, p c = q c) : s.dropWhile p = s.dropWhile q := by
  induction s with
  | nil => rfl
  | cons c s ih =>
    rw [forall_mem_cons] at h
    rw [dropWhile_cons, dropWhile_cons, h.1, ih h.2]

theorem trim_of_visible {s : Str} (h : ∀ c ∈ s, isVisibleChar c) : Str.trim s = trimOws s := by
  have hsame : ∀ c ∈ s, Str.isWhitespace c = isOws c := fun c hc => isWhitespace_of_visible (h c hc)
  unfold Str.trim trimOws
  rw [dropWhile_congr hsame]
  simp only [List.rdropWhile]
  rw [dropWhile_congr]
  intro c hc
  exact hsame c ((dropWhile_sublist _).mem (mem_reverse.mp hc))

theorem mem_of_mem_trimOws {s : Str} {c : Char} (h : c ∈ trimOws s) : c ∈ s :=
  (dropWhile_sublist _).mem ((List.rdropWhile_prefix _ _).mem h)

theorem mem_of_mem_splitOn {c d : Char} {s w : Str} (hw : w ∈ s.splitOn c) (hd : d ∈ w) : d ∈ s := by
  induction s generalizing w with
  | nil =>
    rw [splitOn_nil, mem_singleton] at hw
    rw [hw] at hd
    exact hd
  | cons x s ih =>
    rw [splitOn_cons_eq_if_modifyHead] at hw
    split at hw
    · rcases mem_cons.mp hw with rfl | hw
      · cases hd
      · exact mem_cons_of_mem _ (ih hw hd)
    · cases hs : s.splitOn c with
      | nil => exact absurd hs (splitOn_ne_nil c s)
      | cons v vs =>
        rw [hs] at hw ih
        rcases mem_cons.mp hw with rfl | hw
        · rcases mem_cons.mp hd with rfl | hd
          · exact mem_cons_self
          · exact mem_cons_of_mem _ (ih mem_cons_self hd)
        · exact mem_cons_of_mem _ (ih (mem_cons_of_mem _ hw) hd)

theorem parts_eq_items {line : HeaderValue} (h : line.isVisible) :
    ((line.text.splitOn ',').map Str.trim).filter (· ≠ []) = items line := by
  unfold items
  congr 1
  refine map_congr_left (fun w hw => trim_of_visible (fun c hc => visible_text h c ?_))
  exact mem_of_mem_splitOn hw hc

theorem visible_items {line : HeaderValue} (h : line.isVisible) :
    ∀ item ∈ items line, ∀ c ∈ item, isVisibleChar c := by
  intro item hitem c hc
  obtain ⟨w, hw, rfl⟩ := mem_map.mp (mem_filter.mp hitem).1
  exact visible_text h c (mem_of_mem_splitOn hw (mem_of_mem_trimOws hc))

/-! ## Directives -/

/-- What stands before the first `=`. -/
theorem splitOnce_getD_fst (item : Str) : ((Str.splitOnce item ['=']).getD (item, [])).1 = item.takeWhile (· ≠ '=') := by
  induction item with
  | nil => rfl
  | cons c item ih =>
    by_cases hc : c = '='
    · subst hc
      rfl
    · have hpre : List.isPrefixOf? ['='] (c :: item) = none := stripPrefix_cons_ne hc item []
      rw [Str.splitOnce, hpre, takeWhile_cons, if_pos (by simpa using hc), ← ih]
      cases Str.splitOnce item ['='] with
      | none => rfl
      | some p => rfl

theorem directive_fst {item : Str} (h : ∀ c ∈ item, isVisibleChar c) :
    (directive item).1 = Str.toAsciiLowercase (itemName item) := by
  show Str.toAsciiLowercase (Str.trim ((Str.splitOnce item ['=']).getD (item, [])).1) = _
  rw [splitOnce_getD_fst, itemName, trim_of_visible]
  exact fun c hc => h c ((takeWhile_sublist _).mem hc)

theorem cacheControl_isSome {name : Str} (hname : Str.toAsciiLowercase name = name) :
    ((cacheControl headers).get? name).isSome ↔ Shows name headers := by
  rw [Option.isSome_iff_exists, ← OrdMap.mem_keys_iff]
  unfold cacheControl
  cases hstr : headers.getStr .cacheControl with
  | none =>
    refine iff_of_false (fun h => absurd h not_mem_nil) ?_
    rintro ⟨line, hget, hvis, -⟩
    rw [getStr_eq_some.mpr ⟨line, hget, hvis, rfl⟩] at hstr
    cases hstr
  | some v =>
    obtain ⟨line, hget, hvis, rfl⟩ := getStr_eq_some.mp hstr
    rw [OrdMap.mem_keys_insertAll_empty, parts_eq_items hvis]
    have hitems : (∃ val, (name, val) ∈ (items line).map directive) ↔ HasDirective name line := by
      constructor
      · rintro ⟨val, hmem⟩
        obtain ⟨item, hitem, heq⟩ := mem_map.mp hmem
        refine ⟨item, hitem, eqIgnoreAsciiCase_iff.mpr ?_⟩
        have hfst := directive_fst (visible_items hvis item hitem)
        rw [heq] at hfst
        exact hfst.symm.trans hname.symm
      · rintro ⟨item, hitem, hsame⟩
        refine ⟨(directive item).2, mem_map.mpr ⟨item, hitem, ?_⟩⟩
        have hfst := directive_fst (visible_items hvis item hitem)
        rw [Str.toAsciiLowercase, eqIgnoreAsciiCase_iff.mp hsame] at hfst
        exact Prod.ext (hfst.trans hname) rfl
    rw [hitems]
    constructor
    · intro h
      exact ⟨line, hget, hvis, h⟩
    · rintro ⟨line', hget', -, h⟩
      cases hget.symm.trans hget'
      exact h

/-! ## What may be stored -/

theorem variesOtherwise_iff : config.variesOtherwise headers ↔
    ∃ line, headers.get .vary = some line ∧ line.isVisible ∧ VariesOn config line := by
  unfold CacheConfig.variesOtherwise
  cases hstr : headers.getStr .vary with
  | none =>
    refine iff_of_false Bool.false_ne_true ?_
    rintro ⟨line, hget, hvis, -⟩
    rw [getStr_eq_some.mpr ⟨line, hget, hvis, rfl⟩] at hstr
    cases hstr
  | some v =>
    obtain ⟨line, hget, hvis, rfl⟩ := getStr_eq_some.mp hstr
    have hfields : (line.text.splitOn ',').any (fun field => Str.trim field ≠ [] && (Str.trim field = ['*'] ||
        !config.vary.any (fun v => v.eqIgnoreAsciiCase (Str.trim field)))) ↔ VariesOn config line := by
      rw [VariesOn, ← parts_eq_items hvis, any_eq_true]
      simp only [mem_filter, mem_map, Bool.and_eq_true, Bool.or_eq_true, decide_eq_true_eq, Bool.not_eq_true',
        any_eq_false, Bool.not_eq_true]
      constructor
      · rintro ⟨w, hw, hne, hfield⟩
        exact ⟨Str.trim w, ⟨⟨w, hw, rfl⟩, hne⟩, hfield⟩
      · rintro ⟨field, ⟨⟨w, hw, rfl⟩, hne⟩, hfield⟩
        exact ⟨w, hw, hne, hfield⟩
    refine hfields.trans ⟨fun h => ⟨line, hget, hvis, h⟩, ?_⟩
    rintro ⟨line', hget', -, h⟩
    cases hget.symm.trans hget'
    exact h

theorem cacheableTtl_eq_none_iff :
    config.cacheableTtl status headers = none ↔ ((cacheControl headers).get? "no-store").isSome ∨
      ((cacheControl headers).get? "private").isSome ∨ config.variesOtherwise headers ∨
      headers.containsKey .setCookie ∨ status ≠ 200 := by
  unfold CacheConfig.cacheableTtl
  by_cases hstatus : status ≠ 200
  · simp [hstatus]
  · by_cases hcookie : headers.containsKey .setCookie
    · simp [hcookie]
    · by_cases hvary : config.variesOtherwise headers
      · simp [hvary]
      · rw [if_neg hstatus, if_neg hcookie, if_neg hvary]
        dsimp only
        by_cases hforbid : ((cacheControl headers).get? "no-store").isSome ∨ ((cacheControl headers).get? "private").isSome
        · rw [if_pos hforbid]
          exact iff_of_true rfl (hforbid.imp_right .inl)
        · rw [if_neg hforbid]
          refine iff_of_false ?_ (by tauto)
          split
          · exact Option.some_ne_none _
          · split <;> exact Option.some_ne_none _

theorem cacheableTtl_eq_none : config.cacheableTtl status headers = none ↔ SeenForbidden config status headers := by
  rw [cacheableTtl_eq_none_iff, cacheControl_isSome (by decide), cacheControl_isSome (by decide), variesOtherwise_iff,
    containsKey_iff, SeenForbidden]

theorem cacheableTtl_of_noCache {ttl : Duration} (h : config.cacheableTtl status headers = some ttl)
    (hcc : Shows "no-cache" headers) : ttl = .zero := by
  unfold CacheConfig.cacheableTtl at h
  dsimp only at h
  rw [if_pos (cacheControl_isSome (by decide) |>.mpr hcc)] at h
  simp only [Option.ite_none_left_eq_some, Option.some.injEq] at h
  exact h.2.2.2.2.symm

/-! ## Tags -/

theorem mem_parseTags {tag : Str} : tag ∈ parseTags headers ↔ ShowsTag tag headers := by
  unfold parseTags ShowsTag
  cases hline : (headers.get cacheTag).or (headers.get xCacheTag) with
  | none => simp
  | some line =>
    by_cases hvis : line.isVisible
    · simp only [Option.bind_some, HeaderValue.toStr, hvis, ↓reduceIte, parts_eq_items hvis, Option.some.injEq,
        exists_eq_left', true_and]
    · simp [HeaderValue.toStr, hvis]

theorem ShowsTag.lists {tag : Str} (h : ShowsTag tag headers) : Lists tag headers := by
  obtain ⟨line, hline, -, hmem⟩ := h
  refine ⟨line, mem_append.mpr ?_, hmem⟩
  rcases Option.or_eq_some_iff.mp hline with hget | ⟨-, hget⟩
  · exact .inl (mem_getAll_of_get hget)
  · exact .inr (mem_getAll_of_get hget)

end Pulsate.Cache
