import Pulsate.Config.Cells
import Pulsate.Control.System

/-!
# What a call changes
-/

namespace Pulsate.Control

open List
open Conf (ConfigStore)

variable {mac digest : List UInt8 → List UInt8} {env : Str → Option Str} {indexHtml : Str} {api : AdminApi}

variable {headers : Headers} {scope : Scope}

/-- The store after a call that brings this text, if any. -/
def storeAfter (env : Str → Option Str) (api : AdminApi) (text : Option Str) : ConfigStore :=
  text.elim api.store (fun t => (api.store.reload env t).2)

/-! ## REST -/

theorem guarded_of_ok {endpoint : Option Response × AdminApi} (h : (authorize digest api headers scope).isOk) :
    guarded digest api headers scope endpoint = endpoint := by
  rw [guarded]
  cases ha : authorize digest api headers scope with
  | ok scopes => rfl
  | error r =>
    rw [ha] at h
    cases h

theorem guarded_of_error {r : Response} (endpoint : Option Response × AdminApi)
    (h : authorize digest api headers scope = .error r) : guarded digest api headers scope endpoint = (some r, api) := by
  rw [guarded, h]

theorem guarded_of_not_ok (endpoint : Option Response × AdminApi) (h : (authorize digest api headers scope).isOk ≠ true) :
    ∃ r, authorize digest api headers scope = .error r ∧
      guarded digest api headers scope endpoint = (some r, api) := by
  cases ha : authorize digest api headers scope with
  | ok scopes => exact absurd (by rw [ha]; rfl) h
  | error r => exact ⟨r, rfl, guarded_of_error endpoint ha⟩

theorem guarded_reads {response : Option Response} : (guarded digest api headers scope (response, api)).2 = api := by
  rw [guarded]
  cases authorize digest api headers scope <;> rfl

theorem dispatch_reload {req : Request} (h : isReload req) :
    dispatch mac digest env indexHtml api req =
      guarded digest api req.headers .write (reloadConfig env api (collect req.body)) := by
  obtain ⟨hmethod, hpath⟩ := of_decide_eq_true h
  have hget : ¬ req.method = "GET" := by rw [hmethod]; decide
  have hvalidate : ¬ req.path = "/v1/config/validate" := by rw [hpath]; decide
  simp only [dispatch, hget, hvalidate, false_and, and_false, if_false]
  rw [if_pos ⟨hmethod, hpath⟩]

theorem dispatch_api (req : Request) :
    (dispatch mac digest env indexHtml api req).2 =
      { api with store := storeAfter env api ((Call.rest req).text digest api) } := by
  by_cases h : isReload req
  · rw [dispatch_reload h, Call.text]
    by_cases hok : (authorize digest api req.headers .write).isOk
    · rw [guarded_of_ok hok, if_pos ⟨h, hok⟩]
      rfl
    · obtain ⟨r, -, hr⟩ := guarded_of_not_ok (reloadConfig env api (collect req.body)) hok
      rw [hr, if_neg (fun hc => hok hc.2)]
      rfl
  · rw [Call.text, if_neg (fun hc => h hc.1)]
    show _ = api
    rw [dispatch]
    split_ifs with _ _ _ _ _ _ _ hreload
    iterate 2 rfl
    iterate 5 exact guarded_reads
    · exact absurd (decide_eq_true hreload) h
    · rfl

/-! ## gRPC -/

theorem call_of_ok {metadata : Headers} {rpc : Rpc}
    (h : ((intercept digest api metadata).bind (require · rpc.scope)).isOk) :
    rpc.call mac digest env api metadata = (.ok (rpc.serve mac env api).1, (rpc.serve mac env api).2) := by
  rw [Rpc.call]
  cases ha : (intercept digest api metadata).bind (require · rpc.scope) with
  | ok u => rfl
  | error status =>
    rw [ha] at h
    cases h

theorem call_of_not_ok {metadata : Headers} {rpc : Rpc}
    (h : ((intercept digest api metadata).bind (require · rpc.scope)).isOk ≠ true) :
    (rpc.call mac digest env api metadata).2 = api := by
  rw [Rpc.call]
  cases ha : (intercept digest api metadata).bind (require · rpc.scope) with
  | ok u => exact absurd (by rw [ha]; rfl) h
  | error status => rfl

theorem serve_reloadConfig (text : Str) :
    ((Rpc.reloadConfig text).serve mac env api).2 =
      { api with
        store := (api.store.reload env text).2
        events := api.events ++
          ((api.store.reload env text).1.toOption.map (·.generation)).toList.map .configReloaded } := by
  rw [Rpc.serve]
  cases h : api.store.reload env text with
  | mk result store =>
    cases result with
    | ok generation => rfl
    | error e => cases e <;> simp [Except.toOption]

theorem serve_reads {rpc : Rpc} (h : ∀ text, rpc ≠ .reloadConfig text) : (rpc.serve mac env api).2 = api := by
  cases rpc with
  | reloadConfig text => exact absurd rfl (h text)
  | validateConfig text =>
    rw [Rpc.serve]
    cases Conf.compile env text 0 with
    | ok compiled => rfl
    | error e => cases e <;> rfl
  | _ => rfl

theorem call_api (metadata : Headers) (rpc : Rpc) :
    (rpc.call mac digest env api metadata).2 =
      { api with
        store := storeAfter env api ((Call.grpc metadata rpc).text digest api)
        events := api.events ++ ((Call.grpc metadata rpc).reloads digest env api).toList.map .configReloaded } := by
  by_cases hreload : ∃ text, rpc = .reloadConfig text
  · obtain ⟨text, rfl⟩ := hreload
    by_cases hok : ((intercept digest api metadata).bind (require · .write)).isOk
    · rw [call_of_ok hok, serve_reloadConfig, Call.reloads, Call.text, if_pos hok]
      rfl
    · rw [call_of_not_ok hok, Call.reloads, Call.text, if_neg hok]
      show api = { api with events := api.events ++ [] }
      rw [append_nil]
  · have hne : ∀ text, rpc ≠ .reloadConfig text := fun text heq => hreload ⟨text, heq⟩
    have htext : (Call.grpc metadata rpc).text digest api = none := by
      cases rpc with
      | reloadConfig text => exact absurd rfl (hne text)
      | _ => rfl
    have hsame : (rpc.call mac digest env api metadata).2 = api := by
      by_cases hok : ((intercept digest api metadata).bind (require · rpc.scope)).isOk
      · rw [call_of_ok hok]
        exact serve_reads hne
      · exact call_of_not_ok hok
    rw [hsame, Call.reloads, htext]
    show api = { api with events := api.events ++ [] }
    rw [append_nil]

/-! ## Reloads and their events -/

theorem append_events (event : Str) : (api.append mac event).events = api.events := by
  rw [AdminApi.append]
  split <;> rfl

/-- The generations that gRPC calls of a run publish. -/
def announced (mac digest : List UInt8 → List UInt8) (env : Str → Option Str) (indexHtml : Str) :
    AdminApi → List Call → List Nat
  | _, [] => []
  | api, .grpc metadata rpc :: calls =>
    ((Call.grpc metadata rpc).reloads digest env api).toList ++
      announced mac digest env indexHtml (api.serve mac digest env indexHtml (.grpc metadata rpc)) calls
  | api, call :: calls => announced mac digest env indexHtml (api.serve mac digest env indexHtml call) calls

theorem events_run (api : AdminApi) (calls : List Call) :
    (Lib.run (AdminApi.serve mac digest env indexHtml) api calls).events.filter AdminEvent.isReloaded =
      api.events.filter AdminEvent.isReloaded ++
        (announced mac digest env indexHtml api calls).map .configReloaded := by
  induction calls generalizing api with
  | nil => exact (append_nil _).symm
  | cons call calls ih =>
    rw [Lib.run_cons, ih]
    cases call with
    | append event =>
      rw [announced, AdminApi.serve, append_events]
      exact nofun
    | rest req =>
      rw [announced, AdminApi.serve, dispatch_api]
      exact nofun
    | grpc metadata rpc =>
      have hall : (((Call.grpc metadata rpc).reloads digest env api).toList.map AdminEvent.configReloaded).filter
          AdminEvent.isReloaded =
          ((Call.grpc metadata rpc).reloads digest env api).toList.map AdminEvent.configReloaded := by
        rw [filter_eq_self, forall_mem_map]
        exact fun _ _ => rfl
      rw [announced, map_append, ← append_assoc, AdminApi.serve, call_api, filter_append, hall]

variable (mac digest env indexHtml) in
theorem announced_sublist (api : AdminApi) (calls : List Call) :
    (announced mac digest env indexHtml api calls).Sublist (reloaded mac digest env indexHtml api calls) := by
  induction calls generalizing api with
  | nil => exact .slnil
  | cons call calls ih =>
    cases call with
    | append event => exact ih _
    | rest req => exact (ih _).trans (sublist_append_right _ _)
    | grpc metadata rpc => exact (List.Sublist.refl _).append (ih _)

theorem announced_eq_iff (api : AdminApi) (calls : List Call) :
    announced mac digest env indexHtml api calls = reloaded mac digest env indexHtml api calls ↔
      Lib.Permits (Announces digest env) (AdminApi.serve mac digest env indexHtml) api calls := by
  induction calls generalizing api with
  | nil => exact iff_of_true rfl trivial
  | cons call calls ih =>
    cases call with
    | append event => exact (ih _).trans (and_iff_right nofun).symm
    | grpc metadata rpc =>
      rw [announced, reloaded, append_cancel_left_eq]
      exact (ih _).trans (and_iff_right nofun).symm
    | rest req =>
      cases hr : (Call.rest req).reloads digest env api with
      | none =>
        rw [reloaded, hr]
        exact (ih _).trans (and_iff_right (fun _ _ => hr)).symm
      | some g =>
        -- the generation is in the one list only
        refine iff_of_false (fun heq => ?_) (fun h => ?_)
        · have hlen := (announced_sublist mac digest env indexHtml
            (api.serve mac digest env indexHtml (.rest req)) calls).length_le
          rw [reloaded, hr] at heq
          have := congrArg List.length heq
          simp only [announced, Option.toList_some, singleton_append, length_cons] at this
          omega
        · have := h.1 req rfl
          rw [hr] at this
          cases this

end Pulsate.Control
