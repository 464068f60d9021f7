import Pulsate.Http.Lemmas.Headers
import Pulsate.Lib.Lists
import Pulsate.Pipeline.Pipeline

/-!
# The lines that a pipeline leaves on a response
-/

namespace Pulsate.Pipeline

open List Lib Option Http
open Http (HeaderMap HeaderName HeaderValue Response)
open Routing (Mw)

variable {origin : Option Str} {name : HeaderName}

/-! ## Setting and removing -/

theorem getAll_setHeader (resp : Response) (header : Str × Str) (name : HeaderName) :
    (setHeader resp header).headers.getAll name =
      ((if HeaderName.parse header.1 = some name then HeaderValue.fromStr header.2 else none).map (fun v => [v])).getD
        (resp.headers.getAll name) := by
  unfold setHeader
  cases hparse : HeaderName.parse header.1 with
  | none => rfl
  | some other =>
    by_cases hname : other = name
    · subst hname
      rw [if_pos rfl]
      exact getAll_insertStr _ _ _
    · rw [if_neg (by simpa using hname)]
      exact getAll_insertStr_ne _ _ (Ne.symm hname)

theorem getAll_foldl_setHeader (set : List (Str × Str)) (resp : Response) (name : HeaderName) :
    (set.foldl setHeader resp).headers.getAll name = ((setLine set name).map (fun v => [v])).getD (resp.headers.getAll name) := by
  unfold setLine
  induction set generalizing resp with
  | nil => rfl
  | cons header set ih =>
    rw [foldl_cons, ih, getAll_setHeader, reverse_cons, findSome?_append]
    cases List.findSome? _ set.reverse with
    | none => simp
    | some v => rfl

theorem getAll_removeHeader (resp : Response) (removed : Str) (name : HeaderName) :
    (removeHeader resp removed).headers.getAll name =
      if HeaderName.parse removed = some name then [] else resp.headers.getAll name := by
  unfold removeHeader
  cases hparse : HeaderName.parse removed with
  | none => rfl
  | some other =>
    by_cases hname : other = name
    · subst hname
      rw [if_pos rfl]
      exact getAll_remove_self _ _
    · rw [if_neg (by simpa using hname)]
      exact getAll_remove_ne _ (Ne.symm hname)

theorem getAll_foldl_removeHeader (remove : List Str) (resp : Response) (name : HeaderName) :
    (remove.foldl removeHeader resp).headers.getAll name =
      if remove.any (fun n => HeaderName.parse n = some name) then [] else resp.headers.getAll name := by
  induction remove generalizing resp with
  | nil => rfl
  | cons removed remove ih =>
    rw [foldl_cons, ih, getAll_removeHeader, any_cons]
    by_cases hparse : HeaderName.parse removed = some name <;> simp [hparse]

/-! ## Steps -/

theorem origin_ne_credentials : HeaderName.accessControlAllowOrigin ≠ .accessControlAllowCredentials := by decide

theorem getAll_applyCors (cors : Cors) (origin : Option Str) (resp : Response) (name : HeaderName) :
    (applyCors cors origin resp).headers.getAll name =
      (stepLines origin name (.cors cors.origins cors.methods cors.credentials)).getD (resp.headers.getAll name) := by
  obtain ⟨origins, methods, credentials⟩ := cors
  rw [applyCors, stepLines]
  cases originAllowed ⟨origins, methods, credentials⟩ origin with
  | none => rfl
  | some allow =>
    rw [bind_some]
    dsimp only
    by_cases horigin : name = .accessControlAllowOrigin
    · subst horigin
      rw [if_pos rfl, ← getAll_insertStr]
      cases credentials with
      | true => exact getAll_insert_ne _ _ origin_ne_credentials
      | false => rfl
    · rw [if_neg horigin, ← getAll_insertStr_ne resp allow horigin]
      cases credentials with
      | true =>
        by_cases hcredentials : name = .accessControlAllowCredentials
        · subst hcredentials
          exact getAll_insert_self _ _ _
        · simp only [hcredentials, false_and, if_false, getD_none]
          exact getAll_insert_ne _ _ hcredentials
      | false => simp

theorem getAll_egressStep (mw : Mw) (resp : Response) (name : HeaderName) :
    (egressStep origin mw resp).headers.getAll name = (stepLines origin name mw).getD (resp.headers.getAll name) := by
  cases mw with
  | headers set remove =>
    rw [egressStep, getAll_foldl_setHeader, getAll_foldl_removeHeader, stepLines]
    cases setLine set name with
    | some v => rfl
    | none => split <;> rfl
  | cors origins methods credentials => exact getAll_applyCors ⟨origins, methods, credentials⟩ origin resp name
  | stripPrefix path => rfl
  | rateLimit limiter key => rfl
  | waf engine => rfl
  | ip acl => rfl

theorem length_stepLines {lines : List HeaderValue} {mw : Mw} (h : stepLines origin name mw = some lines) : lines.length ≤ 1 := by
  cases mw with
  | headers set remove =>
    rw [stepLines] at h
    cases hset : setLine set name with
    | some v =>
      rw [hset] at h
      cases h
      exact le_rfl
    | none =>
      rw [hset, map_none, none_or, ite_none_right_eq_some] at h
      cases h.2
      exact Nat.zero_le 1
  | cors origins methods credentials =>
    obtain ⟨allow, -, h⟩ := bind_eq_some_iff.mp h
    split at h
    · obtain ⟨v, -, rfl⟩ := map_eq_some_iff.mp h
      exact le_rfl
    · cases (ite_none_right_eq_some.mp h).2
      exact le_rfl
  | stripPrefix path => cases h
  | rateLimit limiter key => cases h
  | waf engine => cases h
  | ip acl => cases h

/-! ## Pipelines -/

theorem egress_cons (mw : Mw) (pipeline : List Mw) (origin : Option Str) (resp : Response) :
    egress (mw :: pipeline) origin resp = egressStep origin mw (egress pipeline origin resp) := rfl

theorem getAll_egress (pipeline : List Mw) (origin : Option Str) (resp : Response) (name : HeaderName) :
    (egress pipeline origin resp).headers.getAll name = (egressLines pipeline origin name).getD (resp.headers.getAll name) := by
  induction pipeline with
  | nil => rfl
  | cons mw pipeline ih =>
    rw [egress_cons, getAll_egressStep, ih, egressLines, egressLines, findSome?_cons]
    cases stepLines origin name mw with
    | none => rfl
    | some lines => rfl

theorem length_egressLines {pipeline : List Mw} {lines : List HeaderValue} (h : egressLines pipeline origin name = some lines) :
    lines.length ≤ 1 := by
  obtain ⟨mw, -, hstep⟩ := exists_of_findSome?_eq_some h
  exact length_stepLines hstep

theorem keeps_egressStep (origin : Option Str) (mw : Mw) (resp : Response) :
    (egressStep origin mw resp).status = resp.status ∧ (egressStep origin mw resp).body = resp.body := by
  cases mw with
  | headers set remove =>
    have hset : ∀ (r : Response) header, (setHeader r header).status = r.status ∧ (setHeader r header).body = r.body := by
      intro r header
      unfold setHeader
      split
      · exact keeps_insertStr r _ _
      · exact ⟨rfl, rfl⟩
    have hremove : ∀ (r : Response) removed, (removeHeader r removed).status = r.status ∧ (removeHeader r removed).body = r.body := by
      intro r removed
      unfold removeHeader
      split <;> exact ⟨rfl, rfl⟩
    rw [egressStep]
    constructor
    · exact (foldl_keeps (fun r header => (hset r header).1) set _).trans
        (foldl_keeps (fun r removed => (hremove r removed).1) remove resp)
    · exact (foldl_keeps (fun r header => (hset r header).2) set _).trans
        (foldl_keeps (fun r removed => (hremove r removed).2) remove resp)
  | cors origins methods credentials =>
    rw [egressStep, applyCors]
    split
    · exact ⟨rfl, rfl⟩
    · dsimp only
      split
      · exact keeps_insertStr resp _ _
      · exact keeps_insertStr resp _ _
  | stripPrefix path => exact ⟨rfl, rfl⟩
  | rateLimit limiter key => exact ⟨rfl, rfl⟩
  | waf engine => exact ⟨rfl, rfl⟩
  | ip acl => exact ⟨rfl, rfl⟩

theorem keeps_egress (pipeline : List Mw) (origin : Option Str) (resp : Response) :
    (egress pipeline origin resp).status = resp.status ∧ (egress pipeline origin resp).body = resp.body := by
  induction pipeline with
  | nil => exact ⟨rfl, rfl⟩
  | cons mw pipeline ih =>
    rw [egress_cons]
    exact ⟨(keeps_egressStep origin mw _).1.trans ih.1, (keeps_egressStep origin mw _).2.trans ih.2⟩

end Pulsate.Pipeline
