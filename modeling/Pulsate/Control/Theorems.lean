import Pulsate.Control.Lemmas.Access
import Pulsate.Control.Lemmas.Pump

/-!
# The admin surfaces
-/

namespace Pulsate.Control

open List Lib AdminEvent
open Conf (compile generationOf ConfigStore)
open Waf (AuditEntry)
open Lib (isNew run)

variable {mac digest : List UInt8 → List UInt8} {env : Str → Option Str} {indexHtml : Str} {api : AdminApi}

/-! ## Uploads -/

section Uploads

def reloadRequest (headers : Headers) (body : Body) : Request := ⟨"POST", "/v1/config/reload", headers, body⟩

/-- The whole body arrived, is text, and its compilation is live. -/
def Published (env : Str → Option Str) (before after : ConfigStore) (body : Body) (response : Option Response) : Prop :=
  body.complete ∧ ∃ text compiled, Str.bytes text = body.received ∧
    compile env text before.nextGeneration.toNat = .ok compiled ∧ after.current = generationOf compiled ∧
    after.previous = some before.current ∧ ∃ r, response = some r ∧ r.status = 200

/-- Nothing changed, and the client gets an error status or no response. -/
def Refused (before after : ConfigStore) (response : Option Response) : Prop :=
  after.current = before.current ∧ after.previous = before.previous ∧ ∀ r, response = some r → 400 ≤ r.status

theorem authorize_error {headers : Headers} {scope : Scope} {r : Response}
    (h : authorize digest api headers scope = .error r) : 400 ≤ r.status := by
  rw [authorize] at h
  split at h
  · cases h
    decide
  · split at h
    · cases h
      decide
    · split at h
      · cases h
      · cases h
        decide

theorem compile_empty (env : Str → Option Str) (g : Nat) : ∃ compiled, compile env [] g = .ok compiled := by
  have hparse : Flow.parse [] = .ok ⟨[]⟩ := rfl
  refine ⟨⟨(Conf.lower env ⟨[]⟩).1, g, []⟩, ?_⟩
  rw [Conf.compile_of_parse g hparse]
  exact if_pos rfl

theorem reloadConfig_refused (api : AdminApi) {text : Str} {e : Conf.CompileError}
    (h : compile env text api.store.nextGeneration.toNat = .error e) :
    Refused api.store (reloadConfig env api text).2.store (reloadConfig env api text).1 := by
  rw [reloadConfig, ConfigStore.reload_of_error api.store h]
  refine ⟨rfl, rfl, fun r hr => ?_⟩
  cases e with
  | diags diags =>
    cases hr
    exact (by decide : 400 ≤ 422)
  | panic => cases hr
  | outOfFuel => cases hr

theorem reloadConfig_accepted (api : AdminApi) {text : Str} {compiled : Conf.Compiled}
    (h : compile env text api.store.nextGeneration.toNat = .ok compiled) :
    (∃ r, (reloadConfig env api text).1 = some r ∧ r.status = 200) ∧
      (reloadConfig env api text).2.store =
        ⟨generationOf compiled, some api.store.current, api.store.nextGeneration + 1⟩ := by
  rw [reloadConfig, ConfigStore.reload_of_ok api.store h]
  exact ⟨⟨_, rfl, rfl⟩, rfl⟩

def adminApi (store : ConfigStore) : AdminApi := .new store (Cli.gatewayOf store.current.config) [] [] "secret"

def adminHeaders : Headers := [("authorization", Str.bytes "Bearer secret")]

def liveText : Str := "site a.test \x7b\n  route /* ~> respond(status=200)\n\x7d\n"

theorem authorize_adminApi (store : ConfigStore) :
    (authorize id (adminApi store) adminHeaders .write).isOk := by
  have hbearer : bearer adminHeaders = some "secret".toList := by decide
  have hscopes : (adminApi store).scopesFor id "secret" = some .all := rfl
  rw [authorize, hbearer]
  dsimp only
  rw [hscopes]
  rfl

end Uploads

/-! ## Access -/

/-- Whoever does not bear a token with the scope of what is asked for learns nothing of the state and leaves it as it is, and
both surfaces decide alike. -/
theorem access_complete (mac digest : List UInt8 → List UInt8) (env : Str → Option Str) (indexHtml : Str)
    (store : ConfigStore) (gateway : Cli.Gateway) (metrics : Str) (log : List AuditEntry) (adminToken : Str)
    (added : List (Str × Scopes)) (api : AdminApi) (hdigest : Function.Injective digest)
    (htokens : api.tokens = ((AdminApi.new store gateway metrics log adminToken).addTokens added).tokens) :
    (∀ req : Request, (∀ op, req.Asks op → ¬ Authorized adminToken added req.headers op.scope) →
      (dispatch mac digest env indexHtml api req).2 = api ∧
      ∀ mac' env' api' body, api'.tokens = api.tokens →
        (dispatch mac' digest env' indexHtml api' { req with body }).1 = (dispatch mac digest env indexHtml api req).1) ∧
    ∀ (op : Operation) (headers : Headers),
      (Authorized adminToken added headers op.scope ∧
        (∀ body, dispatch mac digest env indexHtml api (op.request headers body) = op.endpoint mac env api body) ∧
        ∀ text, (op.rpc text).call mac digest env api headers =
          (.ok ((op.rpc text).serve mac env api).1, ((op.rpc text).serve mac env api).2)) ∨
      (¬ Authorized adminToken added headers op.scope ∧ ∃ code status detail grpc message,
        (code = .admUnauthorized ∨ code = .admForbidden) ∧
        (∀ body, dispatch mac digest env indexHtml api (op.request headers body) = (some (problem code status detail), api)) ∧
        ∀ text, (op.rpc text).call mac digest env api headers = (.error ⟨grpc, code, message⟩, api)) := by
  have hscopes : ∀ token, api.scopesFor digest token = granted adminToken added token := by
    intro token
    rw [scopesFor_eq hdigest, htokens, tokens_eq_granted]
  refine ⟨fun req hnone => ?_, fun op headers => ?_⟩
  · by_cases hasks : ∃ op, req.Asks op
    · obtain ⟨op, hop⟩ := hasks
      rcases access_cases hscopes req.headers op.scope with ⟨hauth, -⟩ | ⟨-, code, status, detail, _, _, -, hrefused, -⟩
      · exact absurd hauth (hnone op hop)
      · refine ⟨?_, fun mac' env' api' body hsame => ?_⟩
        · rw [dispatch_of_asks hop, guarded_of_error _ hrefused]
        · have hop' : ({ req with body } : Request).Asks op := hop
          rw [dispatch_of_asks hop, dispatch_of_asks hop', guarded_of_error _ hrefused,
            guarded_of_error _ ((authorize_congr hsame).trans hrefused)]
    · obtain ⟨response, hresponse⟩ := dispatch_of_not_asks (not_exists.mp hasks) indexHtml
      have hown := hresponse mac digest env api req.body
      refine ⟨congrArg Prod.snd hown, fun mac' env' api' body _ => ?_⟩
      rw [hresponse]
      exact (congrArg Prod.fst hown).symm
  · have hasks : ∀ body, (op.request headers body).Asks op := fun body => ⟨rfl, rfl⟩
    rcases access_cases hscopes headers op.scope with
      ⟨hauth, hrest, hgrpc⟩ | ⟨hnot, code, status, detail, grpc, message, hcode, hrest, hgrpc⟩
    · refine .inl ⟨hauth, fun body => ?_, fun text => ?_⟩
      · rw [dispatch_of_asks (hasks body)]
        exact guarded_of_ok hrest
      · rw [← rpc_scope op text] at hgrpc
        exact call_of_ok hgrpc
    · refine .inr ⟨hnot, code, status, detail, grpc, message, hcode, fun body => ?_, fun text => ?_⟩
      · rw [dispatch_of_asks (hasks body)]
        exact guarded_of_error _ hrest
      · rw [← rpc_scope op text] at hgrpc
        rw [Rpc.call, hgrpc]

def readOnly : List (Str × Scopes) := [("reader", ⟨true, false, false⟩)]

def readerApi : AdminApi := (adminApi ⟨⟨Conf.Config.empty, 0⟩, none, 1⟩).addTokens readOnly

def readerHeaders : Headers := [("authorization", Str.bytes "Bearer reader ")]

/-- A token that may only read reloads nothing. -/
theorem access_complete_reader : ∃ code status detail grpc message, (code = .admUnauthorized ∨ code = .admForbidden) ∧
    (∀ body, dispatch id id (fun _ => none) [] readerApi (Operation.reload.request readerHeaders body) =
      (some (problem code status detail), readerApi)) ∧
    ∀ text, (Operation.reload.rpc text).call id id (fun _ => none) readerApi readerHeaders =
      (.error ⟨grpc, code, message⟩, readerApi) := by
  have hboth := (access_complete id id (fun _ => none) [] ⟨⟨Conf.Config.empty, 0⟩, none, 1⟩ (Cli.gatewayOf Conf.Config.empty) [] []
    "secret" readOnly readerApi Function.injective_id rfl).2 .reload readerHeaders
  have hbearer : bearer readerHeaders = some "reader" := by decide
  have hgranted : granted "secret" readOnly "reader" = some ⟨true, false, false⟩ := by decide
  rcases hboth with ⟨hauth, -⟩ | ⟨-, hrefused⟩
  · obtain ⟨token, htoken, scopes, hscopes, hsat⟩ := authorized_iff.mp hauth
    cases hbearer.symm.trans htoken
    cases hgranted.symm.trans hscopes
    cases hsat
  · exact hrefused

/-! ## The bus -/

/-- The events that a run of calls puts on the bus are one for each reload that succeeds, with its generation, unless one
of those came in by REST. -/
theorem reload_events_iff (mac digest : List UInt8 → List UInt8) (env : Str → Option Str) (indexHtml : Str)
    (api : AdminApi) (calls : List Call) :
    (run (AdminApi.serve mac digest env indexHtml) api calls).events.filter isReloaded =
        api.events.filter isReloaded ++
          (reloaded mac digest env indexHtml api calls).map .configReloaded ↔
      Lib.Permits (Announces digest env) (AdminApi.serve mac digest env indexHtml) api calls := by
  have hinj : Function.Injective configReloaded := fun _ _ h => configReloaded.inj h
  rw [events_run, append_cancel_left_eq, (map_injective_iff.mpr hinj).eq_iff, announced_eq_iff]

/-- A reload by REST succeeds, and nobody hears of it. -/
theorem reload_unannounced : ∃ store, ConfigStore.load (fun _ => none) [] = .ok store ∧
    (dispatch id id (fun _ => none) [] (adminApi store) (reloadRequest adminHeaders ⟨[], true⟩)).2.store.current.generation = 1 ∧
    ¬ (run (AdminApi.serve id id (fun _ => none) []) (adminApi store)
        [.rest (reloadRequest adminHeaders ⟨[], true⟩)]).events.filter isReloaded =
      (adminApi store).events.filter isReloaded ++
        (reloaded id id (fun _ => none) [] (adminApi store)
          [.rest (reloadRequest adminHeaders ⟨[], true⟩)]).map .configReloaded := by
  refine ⟨⟨⟨Conf.Config.empty, 0⟩, none, 1⟩, rfl, ?_, ?_⟩
  · decide
  · decide

end Pulsate.Control
