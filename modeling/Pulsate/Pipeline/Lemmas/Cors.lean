import Pulsate.Pipeline.Lemmas.Egress
import Pulsate.Pipeline.Lemmas.Gate

/-!
# What the `cors` steps leave on a response

The steps run in reverse and each may put its own line in the place of the one before. So the first step that accepts the
origin has the last word on who is allowed, while any of them may add the credentials.
-/

namespace Pulsate.Pipeline

open List Http HeaderValue
open Http (HeaderMap HeaderName HeaderValue Response isVisibleChar)
open Routing (Mw)

variable {cors : Cors} {origin : Str} {resp : Response} {pipeline : List Mw}

variable {name : HeaderName}

/-! ## One step -/

theorem originAllowed_eq_none : originAllowed cors (some origin) = none ↔ ¬ cors.Accepts origin := by
  show (if ['*'] ∈ cors.origins then some _ else if origin ∈ cors.origins then some _ else none) = none ↔ _
  simp only [Cors.Accepts, Cors.Open, not_or]
  split
  · simp [*]
  · simp [*]

theorem originAllowed_of_open (h : cors.Open) : originAllowed cors (some origin) = some ['*'] := if_pos h

theorem originAllowed_of_listed (h : ¬ cors.Open) (hlist : origin ∈ cors.origins) :
    originAllowed cors (some origin) = some origin := (if_neg h).trans (if_pos hlist)

theorem open_of_originAllowed {origin : Option Str} (h : originAllowed cors origin = some ['*']) : cors.Open := by
  obtain ⟨o, -, h⟩ := Option.bind_eq_some_iff.mp h
  split at h
  · assumption
  · split at h
    · cases h
      assumption
    · cases h

theorem fromStr_star : fromStr ['*'] = some starValue := by decide

theorem stepLines_cors_origin (cors : Cors) (origin : Option Str) :
    stepLines origin .accessControlAllowOrigin (.cors cors.origins cors.methods cors.credentials) =
      ((originAllowed cors origin).bind fromStr).map (fun v => [v]) := by
  rw [stepLines, Option.map_bind]
  rfl

theorem stepLines_cors_credentials (cors : Cors) (origin : Option Str) :
    stepLines origin .accessControlAllowCredentials (.cors cors.origins cors.methods cors.credentials) =
      if (originAllowed cors origin).isSome && cors.credentials then some [trueValue] else none := by
  rw [stepLines]
  cases originAllowed cors origin with
  | none => rfl
  | some allow => simp [origin_ne_credentials.symm]

theorem getAll_origin_applyCors (cors : Cors) (origin : Option Str) (resp : Response) :
    (applyCors cors origin resp).headers.getAll .accessControlAllowOrigin =
      (((originAllowed cors origin).bind fromStr).map (fun v => [v])).getD
        (resp.headers.getAll .accessControlAllowOrigin) := by
  rw [getAll_applyCors, stepLines_cors_origin]

theorem getAll_credentials_applyCors (cors : Cors) (origin : Option Str) (resp : Response) :
    (applyCors cors origin resp).headers.getAll .accessControlAllowCredentials =
      if (originAllowed cors origin).isSome && cors.credentials then [trueValue]
      else resp.headers.getAll .accessControlAllowCredentials := by
  rw [getAll_applyCors, stepLines_cors_credentials]
  split <;> rfl

/-! ## All steps -/

theorem setLine_eq_none {set : List (Str × Str)} (h : ∀ header ∈ set, HeaderName.parse header.1 ≠ some name) :
    setLine set name = none := by
  refine findSome?_eq_none_iff.mpr (fun header hmem => ?_)
  exact if_neg (h header (mem_reverse.mp hmem))

/-- Where no step names the header, only the `cors` steps decide on it. -/
theorem egressLines_of_neutral (hneutral : Neutral name pipeline) (origin : Option Str) :
    egressLines pipeline origin name =
      (corsSteps pipeline).findSome? (fun cors => stepLines origin name (.cors cors.origins cors.methods cors.credentials)) := by
  unfold egressLines corsSteps
  induction pipeline with
  | nil => rfl
  | cons mw pipeline ih =>
    have htail := ih (fun set remove hmem => hneutral set remove (mem_cons_of_mem _ hmem))
    rw [findSome?_cons]
    cases mw with
    | cors origins methods credentials =>
      rw [filterMap_cons_some (f := corsStep) rfl, findSome?_cons, htail]
    | headers set remove =>
      obtain ⟨hset, hremove⟩ := hneutral set remove mem_cons_self
      have hany : remove.any (fun n => HeaderName.parse n = some name) = false :=
        any_eq_false.mpr (fun n hn => by simpa using hremove n hn)
      rw [stepLines, setLine_eq_none hset, hany]
      exact htail
    | stripPrefix path => exact htail
    | rateLimit limiter key => exact htail
    | waf engine => exact htail
    | ip acl => exact htail

theorem corsStep_eq_some {mw : Mw} (h : corsStep mw = some cors) : mw = .cors cors.origins cors.methods cors.credentials := by
  cases mw with
  | cors origins methods credentials =>
    cases h
    rfl
  | _ => cases h

/-- The first step that has a line for the origin has the last word. -/
theorem getAll_origin_egress (hneutral : Neutral .accessControlAllowOrigin pipeline) (origin : Option Str) (resp : Response) :
    (egress pipeline origin resp).headers.getAll .accessControlAllowOrigin =
      (((corsSteps pipeline).findSome? (fun cors => (originAllowed cors origin).bind fromStr)).map (fun v => [v])).getD
        (resp.headers.getAll .accessControlAllowOrigin) := by
  rw [getAll_egress, egressLines_of_neutral hneutral, map_findSome?]
  simp only [stepLines_cors_origin]
  rfl

theorem getAll_credentials_egress (hneutral : Neutral .accessControlAllowCredentials pipeline) (origin : Option Str)
    (resp : Response) : (egress pipeline origin resp).headers.getAll .accessControlAllowCredentials =
      if (corsSteps pipeline).any (fun cors => (originAllowed cors origin).isSome && cors.credentials) then [trueValue]
      else resp.headers.getAll .accessControlAllowCredentials := by
  rw [getAll_egress, egressLines_of_neutral hneutral]
  simp only [stepLines_cors_credentials]
  induction corsSteps pipeline with
  | nil => rfl
  | cons cors rest ih =>
    rw [findSome?_cons, any_cons]
    cases (originAllowed cors origin).isSome && cors.credentials with
    | true => rfl
    | false => exact ih

/-! ## Answers on the way in -/

theorem getAll_preflight {origin : Option Str} (hname : name ≠ .accessControlAllowMethods) :
    (preflight cors origin).headers.getAll name = (applyCors cors origin (.new 204)).headers.getAll name := by
  unfold preflight
  dsimp only
  split
  · rfl
  · exact getAll_insertStr_ne _ _ hname

theorem getAll_blocked (status : Nat) (hname : name ≠ .contentType) :
    (blocked status).headers.getAll name = [] := getAll_insert_ne _ _ hname

theorem getAll_rateLimited (outcome : Waf.RateOutcome)
    (hname : name ∉ [ratelimitLimit, ratelimitRemaining, ratelimitReset, retryAfter]) :
    (rateLimited outcome).headers.getAll name = [] := by
  simp only [mem_cons, not_mem_nil, or_false, not_or] at hname
  obtain ⟨hlimit, hremaining, hreset, hretry⟩ := hname
  show (insertNum (insertNum (insertNum (insertNum _ _ _) _ _) _ _) _ _).headers.getAll name = []
  unfold insertNum
  rw [getAll_insertStr_ne _ _ hretry, getAll_insertStr_ne _ _ hreset, getAll_insertStr_ne _ _ hremaining,
    getAll_insertStr_ne _ _ hlimit]
  rfl

theorem getAll_of_refusal (hname : name ∉ [HeaderName.contentType, ratelimitLimit, ratelimitRemaining,
    ratelimitReset, retryAfter]) (h : Refusal resp) : resp.headers.getAll name = [] := by
  rw [mem_cons, not_or] at hname
  cases h with
  | blocked status => exact getAll_blocked status hname.1
  | rateLimited outcome => exact getAll_rateLimited outcome hname.2

/-! ## Mixed responses -/

theorem fromStr_eq_star {s : Str} (h : fromStr s = some starValue) : s = ['*'] := by
  unfold fromStr at h
  split at h
  · exact Str.bytes_inj (congrArg bytes (Option.some.inj h))
  · cases h

theorem value_eq_star {origin : Option Str} : (originAllowed cors origin).bind fromStr = some starValue ↔
    cors.Open ∧ origin.isSome := by
  constructor
  · intro h
    obtain ⟨allow, hallow, hvalue⟩ := Option.bind_eq_some_iff.mp h
    obtain rfl := fromStr_eq_star hvalue
    refine ⟨open_of_originAllowed hallow, ?_⟩
    cases origin with
    | none => cases hallow
    | some origin => rfl
  · rintro ⟨hopen, horigin⟩
    obtain ⟨origin, rfl⟩ := Option.isSome_iff_exists.mp horigin
    rw [originAllowed_of_open hopen]
    exact fromStr_star

/-- A step has a line for the origins that it accepts. -/
theorem value_eq_none {origin : HeaderValue} (hvis : origin.isVisible) :
    (originAllowed cors (some origin.text)).bind fromStr = none ↔ ¬ cors.Accepts origin.text := by
  by_cases hopen : cors.Open
  · rw [originAllowed_of_open hopen]
    exact iff_of_false (by simp [fromStr_star]) (not_not.mpr (.inl hopen))
  · by_cases hlist : origin.text ∈ cors.origins
    · rw [originAllowed_of_listed hopen hlist, Option.bind_some, fromStr_text hvis]
      exact iff_of_false (by simp) (not_not.mpr (.inr hlist))
    · have hnone : ¬ cors.Accepts origin.text := not_or.mpr ⟨hopen, hlist⟩
      rw [originAllowed_eq_none.mpr hnone]
      exact iff_of_true rfl hnone

theorem open_of_star {origin : Option Str} (hresp : resp.headers.getAll .accessControlAllowOrigin = [])
    (h : starValue ∈ (applyCors cors origin resp).headers.getAll .accessControlAllowOrigin) : cors.Open := by
  rw [getAll_origin_applyCors, hresp] at h
  cases hvalue : (originAllowed cors origin).bind fromStr with
  | none =>
    rw [hvalue] at h
    exact absurd h not_mem_nil
  | some v =>
    rw [hvalue] at h
    obtain rfl := mem_singleton.mp h
    exact (value_eq_star.mp hvalue).1

theorem credentials_of_true {origin : Option Str} (hresp : resp.headers.getAll .accessControlAllowCredentials = [])
    (h : trueValue ∈ (applyCors cors origin resp).headers.getAll .accessControlAllowCredentials) : cors.credentials := by
  rw [getAll_credentials_applyCors, hresp] at h
  split at h
  · rename_i hboth
    exact (Bool.and_eq_true_iff.mp hboth).2
  · exact absurd h not_mem_nil

/-- The answer to a preflight is mixed only if its step is open and has credentials. -/
theorem not_mixed_preflight {origin : Option Str} (hvalid : cors.credentials → ¬ cors.Open) :
    ¬ Mixed (preflight cors origin) := by
  rintro ⟨hstar, htrue⟩
  rw [getAll_preflight (by decide)] at hstar htrue
  exact hvalid (credentials_of_true rfl htrue) (open_of_star rfl hstar)

theorem not_mixed_of_refusal (h : Refusal resp) : ¬ Mixed resp := by
  rintro ⟨hstar, -⟩
  rw [getAll_of_refusal (by decide) h] at hstar
  exact absurd hstar not_mem_nil

/-- A handler's response comes out mixed exactly if the first step that accepts the origin is open, and one that accepts it has
credentials. -/
theorem mixed_egress_iff {origin : HeaderValue} (horigin : Neutral .accessControlAllowOrigin pipeline)
    (hcred : Neutral .accessControlAllowCredentials pipeline) (hvis : origin.isVisible) (hresp : Unmarked resp) :
    Mixed (egress pipeline (some origin.text) resp) ↔
      (∃ pre star post, corsSteps pipeline = pre ++ star :: post ∧ star.Open ∧ ∀ first ∈ pre, ¬ first.Accepts origin.text) ∧
      ∃ cors ∈ corsSteps pipeline, cors.Accepts origin.text ∧ cors.credentials := by
  rw [Mixed, getAll_origin_egress horigin, getAll_credentials_egress hcred, hresp.1, hresp.2]
  have hsome : ∀ cors : Cors, (originAllowed cors (some origin.text)).isSome ↔ cors.Accepts origin.text := by
    intro cors
    rw [Option.isSome_iff_ne_none, Ne, originAllowed_eq_none, not_not]
  refine and_congr ?_ ?_
  · have hfind : ∀ found : Option HeaderValue, starValue ∈ (found.map (fun v => [v])).getD [] ↔ found = some starValue := by
      intro found
      cases found with
      | none => simp
      | some v => simp [eq_comm]
    rw [hfind, findSome?_eq_some_iff]
    simp only [value_eq_star, value_eq_none hvis, Option.isSome_some, and_true]
  · simp only [← hsome, ← Bool.and_eq_true, ← any_eq_true]
    cases (corsSteps pipeline).any _ with
    | true => simp
    | false => simp

end Pulsate.Pipeline
