import Pulsate.Control.Access
import Pulsate.Control.Lemmas.Calls

/-!
# What the surfaces let through
-/

namespace Pulsate.Control

open Option

variable {mac digest : List UInt8 → List UInt8} {env : Str → Option Str} {indexHtml : Str} {api : AdminApi}

/-! ## Tokens -/

theorem tokens_addTokens (api : AdminApi) (added : List (Str × Scopes)) :
    (api.addTokens added).tokens = api.tokens.insertAll added := by
  induction added generalizing api with
  | nil => rfl
  | cons token added ih => exact ih (api.addToken token.1 token.2)

theorem tokens_eq_granted (store : Conf.ConfigStore) (gateway : Cli.Gateway) (metrics : Str) (log : List Waf.AuditEntry)
    (adminToken : Str) (added : List (Str × Scopes)) (token : Str) :
    ((AdminApi.new store gateway metrics log adminToken).addTokens added).tokens.get? token = granted adminToken added token := by
  rw [tokens_addTokens, granted, ← Lib.OrdMap.get?_insertAll_empty]
  rfl

theorem scopesFor_eq (hdigest : Function.Injective digest) (token : Str) : api.scopesFor digest token = api.tokens.get? token := by
  rw [← Lib.OrdMap.foldl_match, AdminApi.scopesFor]
  have heq : ∀ known : Str, digest token.bytes = digest (Str.bytes known) ↔ token = known :=
    fun known => (hdigest.eq_iff).trans ⟨Str.bytes_inj, congrArg Str.bytes⟩
  simp only [heq]

theorem bearer_eq_some {headers : Headers} {token : Str} : bearer headers = some token ↔
    ∃ value raw, headers.lookup "authorization".toList = some value ∧ headerStr value = some ("Bearer ".toList ++ raw) ∧
      token = Str.trim raw := by
  simp only [bearer, map_eq_some_iff, bind_eq_some_iff, Str.stripPrefix, List.isPrefixOf?_eq_some_iff_append_eq]
  constructor
  · rintro ⟨raw, ⟨line, ⟨value, hvalue, hline⟩, rfl⟩, rfl⟩
    exact ⟨value, raw, hvalue, hline, rfl⟩
  · rintro ⟨value, raw, hvalue, hline, rfl⟩
    exact ⟨raw, ⟨_, ⟨value, hvalue, hline⟩, rfl⟩, rfl⟩

/-! ## Decisions -/

section Decisions

variable {adminToken : Str} {added : List (Str × Scopes)} {headers : Headers} {scope : Scope}

theorem authorized_iff : Authorized adminToken added headers scope ↔
    ∃ token, bearer headers = some token ∧ ∃ scopes, granted adminToken added token = some scopes ∧
      scopes.satisfies scope := by
  simp only [bearer_eq_some]
  constructor
  · rintro ⟨value, raw, scopes, hvalue, hline, hgranted, hsat⟩
    exact ⟨_, ⟨value, raw, hvalue, hline, rfl⟩, scopes, hgranted, hsat⟩
  · rintro ⟨_, ⟨value, raw, hvalue, hline, rfl⟩, scopes, hgranted, hsat⟩
    exact ⟨value, raw, scopes, hvalue, hline, hgranted, hsat⟩

/-- Both surfaces let the bearer of a token pass to which the scope was given, and turn all others away for the same reason. -/
theorem access_cases (hscopes : ∀ token, api.scopesFor digest token = granted adminToken added token) (headers : Headers)
    (scope : Scope) :
    Authorized adminToken added headers scope ∧ (authorize digest api headers scope).isOk ∧
      ((intercept digest api headers).bind (require · scope)).isOk ∨
    ¬ Authorized adminToken added headers scope ∧ ∃ code status detail grpc message,
      (code = .admUnauthorized ∨ code = .admForbidden) ∧
      authorize digest api headers scope = .error (problem code status detail) ∧
      (intercept digest api headers).bind (require · scope) = .error ⟨grpc, code, message⟩ := by
  rw [authorized_iff, authorize, intercept]
  cases bearer headers with
  | none => exact .inr ⟨by simp, .admUnauthorized, _, _, _, _, .inl rfl, rfl, rfl⟩
  | some token =>
    simp only [hscopes, bind_some, Option.some.injEq, exists_eq_left']
    cases granted adminToken added token with
    | none => exact .inr ⟨by simp, .admUnauthorized, _, _, _, _, .inl rfl, rfl, rfl⟩
    | some scopes =>
      simp only [Option.some.injEq, exists_eq_left', Except.bind, require]
      cases scopes.satisfies scope with
      | true => exact .inl ⟨rfl, rfl, rfl⟩
      | false => exact .inr ⟨by simp, .admForbidden, _, _, _, _, .inr rfl, rfl, rfl⟩

theorem authorize_congr {api' : AdminApi} (h : api'.tokens = api.tokens) :
    authorize digest api' headers scope = authorize digest api headers scope := by
  unfold authorize AdminApi.scopesFor
  rw [h]

end Decisions

/-! ## Operations -/

theorem rpc_scope (op : Operation) (text : Str) : (op.rpc text).scope = op.scope := by
  cases op with
  | _ => rfl

theorem dispatch_of_asks {req : Request} {op : Operation} (h : req.Asks op) :
    dispatch mac digest env indexHtml api req = guarded digest api req.headers op.scope (op.endpoint mac env api req.body) := by
  obtain ⟨method, path, headers, body⟩ := req
  obtain ⟨rfl, rfl⟩ : method = op.method ∧ path = op.path := h
  cases op with
  | _ => rfl

theorem dispatch_of_not_asks {req : Request} (h : ∀ op, ¬ req.Asks op) (indexHtml : Str) :
    ∃ response, ∀ mac digest env api body,
      dispatch mac digest env indexHtml api { req with body } = (some response, api) := by
  by_cases hpage : req.method = "GET" ∧ (req.path = "/" ∨ ¬ "/v1" <+: req.path)
  · exact ⟨_, fun mac digest env api body => if_pos hpage⟩
  · by_cases hhealth : req.method = "GET" ∧ req.path = "/v1/health"
    · exact ⟨_, fun mac digest env api body => (if_neg hpage).trans (if_pos hhealth)⟩
    · refine ⟨problem .prxNoRoute 404 "no such admin endpoint", fun mac digest env api body => ?_⟩
      apply (if_neg hpage).trans
      apply (if_neg hhealth).trans
      apply (if_neg (h .info)).trans
      apply (if_neg (h .metrics)).trans
      apply (if_neg (h .upstreams)).trans
      apply (if_neg (h .audit)).trans
      apply (if_neg (h .validate)).trans
      exact if_neg (h .reload)

end Pulsate.Control
