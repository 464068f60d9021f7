import Pulsate.Cache.Lemmas.Directives
import Pulsate.Proxy.Forward

/-!
# Lemmas about headers that are passed on
-/

namespace Pulsate.Proxy

open List Http
open Http (HeaderMap HeaderName HeaderValue)

variable {headers : HeaderMap} {name : HeaderName} {req : Forwarding}

/-! ## Names that are stripped -/

theorem connectionTokens_text {line : HeaderValue} (hvis : line.isVisible) :
    connectionTokens line.text = (Cache.items line).map Str.toAsciiLowercase := by
  have hcompose : (fun token => Str.toAsciiLowercase (Str.trim token)) = Str.toAsciiLowercase ∘ Str.trim := rfl
  rw [← Cache.parts_eq_items hvis, connectionTokens, hcompose, ← map_map, filter_map]
  congr 1
  refine filter_congr (fun token _ => ?_)
  simp [Str.toAsciiLowercase]

theorem mem_stripSet : name.text ∈ connectionStripSet headers ↔ name.text ∈ hopByHop ∨ ShowsNominated headers name := by
  rw [connectionStripSet, mem_append]
  refine or_congr_right ?_
  cases hstr : headers.getStr connection with
  | none =>
    refine iff_of_false not_mem_nil ?_
    rintro ⟨line, hget, hvis, -⟩
    rw [getStr_eq_some.mpr ⟨line, hget, hvis, rfl⟩] at hstr
    cases hstr
  | some conn =>
    obtain ⟨line, hget, hvis, rfl⟩ := getStr_eq_some.mp hstr
    simp only [Option.map_some, Option.getD_some, connectionTokens_text hvis, mem_map, ShowsNominated, hget,
      Option.some.injEq, exists_eq_left', hvis, true_and, Nominates]

theorem nominated_of_shows (h : ShowsNominated headers name) : Nominated headers name := by
  obtain ⟨line, hget, -, hline⟩ := h
  exact ⟨line, mem_getAll_of_get hget, hline⟩

theorem getAll_copyHeaders (headers : HeaderMap) (name : HeaderName) : (copyHeaders headers).getAll name =
    if name.text ∈ connectionStripSet headers then [] else (headers.getAll name).getLast?.toList := by
  rw [copyHeaders, getAll_foldl_insert_filter headers (fun name => name.text ∉ connectionStripSet headers)]
  by_cases hstrip : name.text ∈ connectionStripSet headers <;> simp [hstrip]

theorem getAll_copyHeaders_of_free (h : ¬ Held headers name) :
    (copyHeaders headers).getAll name = (headers.getAll name).getLast?.toList := by
  refine (getAll_copyHeaders headers name).trans (if_neg ?_)
  rw [mem_stripSet]
  exact fun hmem => h (hmem.imp_right nominated_of_shows)

theorem getAll_copyHeaders_eq_nil : (copyHeaders headers).getAll name = [] ↔
    (name.text ∈ hopByHop ∨ ShowsNominated headers name) ∨ headers.getAll name = [] := by
  rw [getAll_copyHeaders, ← mem_stripSet]
  split
  · rename_i hstrip
    exact iff_of_true rfl (.inl hstrip)
  · rename_i hstrip
    rw [or_iff_right hstrip, Option.toList_eq_nil_iff, getLast?_eq_none_iff]

/-- Names that are meant for one hop only are held back where they are shown. -/
theorem held_copyHeaders_iff : (Held headers name → (copyHeaders headers).getAll name = []) ↔ ShowsAll headers name := by
  rw [getAll_copyHeaders_eq_nil, Held, ShowsAll]
  tauto

/-! ## Headers that are set -/

theorem insertValid_eq (headers : HeaderMap) (name : HeaderName) (value : Str) :
    insertValid headers name value = (Http.Response.insertStr ⟨200, headers, []⟩ name value).headers := by
  unfold insertValid Http.Response.insertStr
  cases HeaderValue.fromStr value with
  | none => rfl
  | some v => rfl

theorem getAll_insertValid (headers : HeaderMap) (name : HeaderName) (value : Str) :
    (insertValid headers name value).getAll name = ((HeaderValue.fromStr value).map (fun v => [v])).getD (headers.getAll name) := by
  rw [insertValid_eq]
  exact getAll_insertStr _ _ _

theorem getAll_insertValid_of {other : HeaderName} {value : Str} (headers : HeaderMap)
    (h : ¬ name = other ∨ (HeaderValue.fromStr value).isSome = false) :
    (insertValid headers other value).getAll name = headers.getAll name := by
  rw [insertValid_eq]
  exact getAll_insertStr_of _ h

theorem getAll_outHeaders (h : req.sets name = false) : req.outHeaders.getAll name = (copyHeaders req.headers).getAll name := by
  simp only [Forwarding.sets, Bool.or_eq_false_iff, decide_eq_false_iff_not, Bool.and_eq_false_iff] at h
  obtain ⟨⟨⟨hvia, hproto⟩, hhost⟩, hfor⟩ := h
  unfold Forwarding.outHeaders applyForwarded
  dsimp only
  rw [getAll_insert_ne _ _ hvia, getAll_insert_ne _ _ hproto, getAll_insertValid_of _ hhost]
  cases hip : req.clientIp with
  | none => rfl
  | some ip =>
    rw [hip] at hfor
    exact getAll_insertValid_of _ hfor

end Pulsate.Proxy
