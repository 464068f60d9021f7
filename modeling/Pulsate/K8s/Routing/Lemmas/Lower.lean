import Pulsate.Config.Build
import Pulsate.Config.Lemmas.Erase
import Pulsate.K8s.Tree

/-!
# The configuration of a plan

Trees that are those of a plan up to positions are lowered to the plan's upstreams and sites.
-/

namespace Pulsate.K8s

open List Pulsate.Conf
open Pulsate.Flow (Stmt Value Arg Span typeAtom)
open Conf (Block RouteDef Site Config blocks stmtDiags lowerSite lowerRoute lowerHost routesIn asStr EndsOnce)

/-! ## Diagnostics up to positions -/

theorem endsOnce_erase (rt : Flow.Route) : EndsOnce rt.erase ↔ EndsOnce rt := by
  simp only [EndsOnce, Flow.Route.erase, filter_map, length_map, forall_mem_map, getLast?_map,
    Option.map_eq_some_iff, exists_exists_and_eq_and]
  exact Iff.rfl

theorem stmtDiags_erase {env : Str → Option Str} {s : Stmt} (h : stmtDiags env s.erase = []) : stmtDiags env s = [] := by
  cases s with
  | route r => rfl
  | directive d =>
    unfold stmtDiags lowerStmt at h ⊢
    dsimp only [Stmt.erase, Flow.Directive.erase] at h ⊢
    rw [firstPositionalStr_erase] at h
    split_ifs at h ⊢
    · cases hv : firstPositionalStr d.args with
      | none => rfl
      | some v =>
        rw [hv] at h
        dsimp only at h ⊢
        split at h
        next hc => rw [if_pos hc]
        next => cases h
    · rfl
  | block kw args body span =>
    by_cases hs : kw.node = "site"
    · have hs' : (Flow.Spanned.mk kw.node Span.zero).node = "site" := hs
      rw [Flow.Stmt.erase, Flow.Stmt.eraseAll_eq_map, stmtDiags_site hs', routesIn_erase, flatMap_map,
        flatMap_eq_nil_iff] at h
      rw [stmtDiags_site hs, flatMap_eq_nil_iff]
      intro rt hrt
      exact terminalIdx_diags_eq_nil.mpr ((endsOnce_erase rt).mp (terminalIdx_diags_eq_nil.mp (h rt hrt)))
    · exact stmtDiags_block hs

/-! ## Routes and sites -/

/-- The definition of a route is that of an entry. -/
structure Serves (rd : RouteDef) (n : Entry) : Prop where
  kind : rd.kind = n.kind.toFlow
  pattern : rd.pattern = n.pattern
  method : rd.method = n.method.map Str.toAsciiUppercase
  mwSpecs : rd.mwSpecs = []
  handler : rd.handler = some (.proxy (some n.upstream) none)
  refs : rd.refs.map (·.name) = [n.upstream]

theorem lowerRoute_tree (n : Entry) : Serves (lowerRoute n.tree).1 n :=
  ⟨rfl, rfl, by cases h : n.method <;> simp [lowerRoute, Entry.tree, h], rfl, rfl, rfl⟩

theorem Serves.of_erase {rd : RouteDef} {n : Entry} (h : Serves rd.erase n) : Serves rd n :=
  ⟨h.kind, h.pattern, h.method, h.mwSpecs, h.handler, by simpa [RouteDef.erase, RefUse.erase] using h.refs⟩

/-- A site lists the host it was written for, if that is read as a string, and serves the entries. -/
structure SiteServes (site : Site) (host : Str) (entries : List Entry) : Prop where
  hosts : site.hosts.map (·.pattern) = (asStr (typeAtom host)).toList
  routes : List.Forall₂ Serves site.routes entries

theorem routesIn_entries (https : Bool) (entries : List Entry) :
    routesIn (tlsStmt https :: entries.map Entry.stmt) = entries.map Entry.tree := by
  show (entries.map Entry.stmt).filterMap _ = _
  rw [filterMap_map]
  exact congrFun filterMap_eq_map entries

theorem lowerHost_typeAtom (v : Value) (span : Span) :
    ([Arg.positional ⟨v, span⟩].filterMap lowerHost).map (·.pattern) = (asStr v).toList := by
  cases v <;> rfl

theorem lowerSite_serves (host : Str) (https : Bool) (entries : List Entry) :
    SiteServes (lowerSite [wordArg (typeAtom host)] (tlsStmt https :: entries.map Entry.stmt) Span.zero).1 host entries := by
  constructor
  · rw [lowerSite_hosts]
    exact lowerHost_typeAtom ..
  · rw [lowerSite_routes, routesIn_entries, map_map]
    exact forall₂_map_left_iff.mpr (forall₂_same.mpr fun n _ => lowerRoute_tree n)

theorem SiteServes.of_erase {site : Site} {host : Str} {entries : List Entry} (h : SiteServes site.erase host entries) :
    SiteServes site host entries :=
  ⟨by rw [← h.hosts, Site.erase, map_map]; rfl, (forall₂_map_left_iff.mp h.routes).imp fun _ _ => Serves.of_erase⟩

/-! ## Documents -/

/-- The configuration of a plan: its upstreams by name and its sites. -/
structure Lowered (plan : Plan) (config : Config) : Prop where
  upstreams : config.upstreams.map (·.name) = plan.upstreams.keys
  sites : List.Forall₂ (fun site e => SiteServes site e.1 e.2.routes.values) config.sites plan.sites.entries
  rest : config.caches = [] ∧ config.wafs = [] ∧ config.userSets = []

theorem blocks_stmts (plan : Plan) (host : Str → Value) (kind : Str) : blocks kind (plan.stmts host) =
    (if "upstream".toList = kind then plan.upstreams.entries.map (fun e =>
      Block.mk ⟨"upstream", Span.zero⟩ [wordArg (.str e.1)] (e.2.map Target.stmt) Span.zero) else []) ++
    if "site".toList = kind then plan.sites.entries.map (fun e =>
      Block.mk ⟨"site", Span.zero⟩ [wordArg (host e.1)] (tlsStmt e.2.https :: e.2.routes.values.map Entry.stmt) Span.zero)
    else [] := by
  rw [Plan.stmts, blocks, filterMap_append, filterMap_map, filterMap_map]
  congr 1
  · split_ifs with h
    · exact (filterMap_congr fun e _ => if_pos h).trans (congrFun filterMap_eq_map _)
    · exact filterMap_eq_nil_iff.mpr fun e _ => if_neg h
  · split_ifs with h
    · exact (filterMap_congr fun e _ => if_pos h).trans (congrFun filterMap_eq_map _)
    · exact filterMap_eq_nil_iff.mpr fun e _ => if_neg h

theorem stmtDiags_stmts (env : Str → Option Str) (plan : Plan) : ∀ s ∈ plan.stmts typeAtom, stmtDiags env s = [] := by
  simp only [Plan.stmts, forall_mem_append, forall_mem_map]
  refine ⟨fun e _ => stmtDiags_block (by decide), fun e _ => ?_⟩
  rw [siteStmt, blockStmt, stmtDiags_site rfl, routesIn_entries, flatMap_eq_nil_iff, forall_mem_map]
  exact fun n _ => rfl

theorem lower_plan (env : Str → Option Str) {ast : Flow.Ast} {plan : Plan}
    (h : ast.erase.stmts = plan.stmts typeAtom) :
    ∃ config, lower env ast = (config, []) ∧ Lowered plan config := by
  have hstmts : ast.stmts.map Stmt.erase = plan.stmts typeAtom := (Flow.Stmt.eraseAll_eq_map _).symm.trans h
  have hdiags : (lower env ast).2 = [] := by
    rw [lower_diags, flatMap_eq_nil_iff]
    exact fun s hs => stmtDiags_erase (stmtDiags_stmts env plan _ (hstmts ▸ mem_map_of_mem hs))
  have hlower : (lower env ast.erase).1 = (lower env ast).1.erase := lower_erase ast
  have hparts : ∀ kind, blocks kind ast.erase.stmts = blocks kind (plan.stmts typeAtom) := fun kind => congrArg _ h
  refine ⟨(lower env ast).1, Prod.ext rfl hdiags, ?_, ?_, ?_, ?_, ?_⟩
  · have hups : (lower env ast.erase).1.upstreams.map (·.name) = plan.upstreams.keys := by
      rw [lower_upstreams, hparts, blocks_stmts, if_pos rfl, if_neg (by decide), append_nil, map_map, map_map]
      exact map_congr_left fun e _ => lowerUpstream_name ..
    rw [← hups, hlower, Config.erase, map_map]
    rfl
  · have hsites : List.Forall₂ (fun site e => SiteServes site e.1 e.2.routes.values) (lower env ast.erase).1.sites
        plan.sites.entries := by
      rw [lower_sites, hparts, blocks_stmts, if_neg (by decide), if_pos rfl, nil_append, map_map]
      exact forall₂_map_left_iff.mpr (forall₂_same.mpr fun e _ => lowerSite_serves ..)
    rw [hlower] at hsites
    exact (forall₂_map_left_iff.mp hsites).imp fun _ _ => SiteServes.of_erase
  · have hcaches := congrArg (·.caches) hlower
    rw [lower_caches, hparts, blocks_stmts] at hcaches
    exact map_eq_nil_iff.mp hcaches.symm
  · have hwafs := congrArg (·.wafs) hlower
    rw [lower_wafs, hparts, blocks_stmts] at hwafs
    exact map_eq_nil_iff.mp hwafs.symm
  · have husers := congrArg (·.userSets) hlower
    rw [lower_userSets, hparts, blocks_stmts] at husers
    exact map_eq_nil_iff.mp husers.symm

end Pulsate.K8s
