import Pulsate.Config.Lemmas.Settings
import Pulsate.Flow.Tree

/-!
# Lowering does not look at positions

Lowering a tree without positions gives the configuration of the tree, without positions.
-/

namespace Pulsate.Flow

theorem Value.eraseItems_eq_map (items : List (Spanned Value)) :
    Value.erase.eraseItems items = items.map (fun i => ⟨i.node.erase, Span.zero⟩) := by
  induction items with
  | nil => rfl
  | cons i items ih => rw [Value.erase.eraseItems, ih, List.map_cons]

end Pulsate.Flow

namespace Pulsate.Conf

open Pulsate.Flow (Arg Ast Directive Span Spanned Stmt Step Value)
open List

variable {env : Str → Option Str}

/-! ## Arguments -/

section Arguments

variable (args : List Arg) (key : Str)

theorem firstPositional_erase : firstPositional (args.map Arg.erase) = (firstPositional args).map Value.erase := by
  induction args with
  | nil => rfl
  | cons a args ih =>
    cases a with
    | positional v => rfl
    | named n v => exact ih

theorem namedValue_erase : namedValue (args.map Arg.erase) key = (namedValue args key).map Value.erase := by
  induction args with
  | nil => rfl
  | cons a args ih =>
    cases a with
    | positional v => exact ih
    | named n v =>
      by_cases h : n.node = key
      · simp [namedValue, Arg.erase, h]
      · simpa [namedValue, Arg.erase, h] using ih

@[simp] theorem asStr_erase (v : Value) : asStr v.erase = asStr v := by cases v <;> rfl

@[simp] theorem asInt_erase (v : Value) : asInt v.erase = asInt v := by cases v <;> rfl

@[simp] theorem resolveStr_erase (v : Value) : resolveStr env v.erase = resolveStr env v := by cases v <;> rfl

@[simp] theorem strItems_erase (v : Option Value) : strItems (v.map Value.erase) = strItems v := by
  cases v with
  | none => rfl
  | some v =>
    cases v with
    | array items =>
      show (Value.erase.eraseItems items).filterMap (fun i => asStr i.node) = _
      rw [Value.eraseItems_eq_map, filterMap_map]
      exact filterMap_congr (fun i _ => asStr_erase i.node)
    | _ => rfl

@[simp] theorem firstPositionalStr_erase : firstPositionalStr (args.map Arg.erase) = firstPositionalStr args := by
  rw [firstPositionalStr, firstPositional_erase, Option.bind_map]
  exact congrArg (Option.bind _) (funext asStr_erase)

@[simp] theorem namedStr_erase : namedStr (args.map Arg.erase) key = namedStr args key := by
  rw [namedStr, namedValue_erase, Option.bind_map]
  exact congrArg (Option.bind _) (funext asStr_erase)

@[simp] theorem namedStrArray_erase : namedStrArray (args.map Arg.erase) key = namedStrArray args key := by
  rw [namedStrArray, namedValue_erase, strItems_erase, namedStrArray]

@[simp] theorem positionalStrArray_erase : positionalStrArray (args.map Arg.erase) = positionalStrArray args := by
  rw [positionalStrArray, firstPositional_erase, strItems_erase, positionalStrArray]

theorem argValue_erase (a : Arg) : argValue a.erase = ⟨(argValue a).node.erase, Span.zero⟩ := by cases a <;> rfl

@[simp] theorem firstRef_erase : firstRef (args.map Arg.erase) = firstRef args := by
  rw [firstRef, firstRef, findSome?_map]
  congr 1
  funext a
  rw [Function.comp_apply, argValue_erase]
  cases (argValue a).node <;> rfl

@[simp] theorem statusArg_erase (default : Nat) : statusArg (args.map Arg.erase) default = statusArg args default := by
  simp only [statusArg, firstPositional_erase, namedValue_erase, Option.bind_map, Function.comp_def, asInt_erase]

@[simp] theorem tlsMode_erase : tlsMode (args.map Arg.erase) = tlsMode args := by
  rw [tlsMode, tlsMode, firstPositional_erase]
  cases firstPositional args with
  | none => rfl
  | some v => cases v <;> rfl

end Arguments

/-! ## Statements -/

section Statements

variable (body : List Stmt)

theorem directivesOf_erase (keys : List Str) :
    directivesOf keys (body.map Stmt.erase) = (directivesOf keys body).map Directive.erase := by
  rw [directivesOf, directivesOf, filterMap_map, map_filterMap]
  refine filterMap_congr (fun s _ => ?_)
  cases s with
  | directive d =>
    show (if d.keyword.node ∈ keys then some d.erase else none) = (if d.keyword.node ∈ keys then some d else none).map _
    split_ifs <;> rfl
  | _ => rfl

def Block.erase (b : Block) : Block :=
  ⟨⟨b.keyword.node, Span.zero⟩, b.args.map Arg.erase, b.body.map Stmt.erase, Span.zero⟩

theorem blocks_erase (kind : Str) : blocks kind (body.map Stmt.erase) = (blocks kind body).map Block.erase := by
  rw [blocks, blocks, filterMap_map, map_filterMap]
  refine filterMap_congr (fun s _ => ?_)
  cases s with
  | block kw args body span =>
    show (if kw.node = kind then some (Block.mk ⟨kw.node, Span.zero⟩ (args.map Arg.erase) (Stmt.erase.eraseAll body) Span.zero)
      else none) = (if kw.node = kind then some (Block.mk kw args body span) else none).map Block.erase
    rw [Stmt.eraseAll_eq_map]
    split_ifs <;> rfl
  | _ => rfl

theorem routesIn_erase : routesIn (body.map Stmt.erase) = (routesIn body).map Flow.Route.erase := by
  rw [routesIn, routesIn, filterMap_map, map_filterMap]
  refine filterMap_congr (fun s _ => ?_)
  cases s <;> rfl

theorem foldl_erase {β : Type} {f : β → Stmt → β} {e : β → β} (h : ∀ b s, f (e b) s.erase = e (f b s))
    (b : β) : (body.map Stmt.erase).foldl f (e b) = e (body.foldl f b) := by
  rw [foldl_map]
  exact foldl_hom e h

end Statements

/-! ## Upstreams, caches, wafs -/

attribute [ext] RouteDef Site Config

def CacheDef.erase (c : CacheDef) : CacheDef := { c with span := Span.zero }

def WafDef.erase (w : WafDef) : WafDef := { w with span := Span.zero }

def Named.erase (n : Named) : Named := { n with span := Span.zero }

def Upstream.erase (u : Upstream) : Upstream := { u with span := Span.zero }

section Bodies

variable (body : List Stmt)

theorem lowerTarget_erase (args : List Arg) : lowerTarget env (args.map Arg.erase) = lowerTarget env args := by
  have hurl : (fun v => resolveStr env (Value.erase v)) = resolveStr env := funext resolveStr_erase
  rw [lowerTarget, lowerTarget, firstPositional_erase, namedValue_erase, Option.bind_map, Function.comp_def, hurl]
  cases namedValue args "weight" with
  | none => rfl
  | some v => cases v <;> rfl

theorem foldl_addCondition_erase (items : List (Spanned Value)) (r : Retry) :
    (Value.erase.eraseItems items).foldl addCondition r = items.foldl addCondition r := by
  rw [Value.eraseItems_eq_map, foldl_map]
  refine congrArg (fun f => foldl f r items) (funext₂ fun r i => ?_)
  unfold addCondition
  cases i.node <;> rfl

theorem lowerRetry_erase : lowerRetry (body.map Stmt.erase) = lowerRetry body := by
  refine foldl_erase (e := id) body (fun r s => ?_) _
  cases s with
  | directive d =>
    dsimp only [Stmt.erase, Directive.erase, id_eq]
    rw [firstPositional_erase]
    cases firstPositional d.args with
    | none => rfl
    | some v =>
      cases v with
      | array items =>
        dsimp only [Option.map_some, Value.erase]
        split_ifs
        · rfl
        · exact foldl_addCondition_erase items r
        · rfl
      | _ => rfl
  | _ => rfl

theorem lowerBreaker_erase : lowerBreaker (body.map Stmt.erase) = lowerBreaker body := by
  refine foldl_erase (e := id) body (fun b s => ?_) _
  cases s with
  | directive d =>
    dsimp only [Stmt.erase, Directive.erase, id_eq]
    rw [firstPositional_erase]
    cases firstPositional d.args with
    | none => rfl
    | some v => cases v <;> rfl
  | _ => rfl

variable (b : Block)

theorem lowerUpstreamBlock_erase : lowerUpstreamBlock env b.erase = (lowerUpstreamBlock env b).erase := by
  unfold lowerUpstreamBlock lowerUpstream Block.erase
  rw [← foldl_erase (e := Upstream.erase), firstPositionalStr_erase]
  · rfl
  · intro u s
    cases s with
    | directive d =>
      dsimp only [Stmt.erase, Directive.erase]
      rw [lowerTarget_erase, firstPositionalStr_erase]
      split_ifs <;> rfl
    | block kw args body span =>
      dsimp only [Stmt.erase]
      rw [Stmt.eraseAll_eq_map, lowerRetry_erase, lowerBreaker_erase]
      split_ifs <;> rfl
    | route r => rfl

theorem lowerCacheBlock_erase : lowerCacheBlock b.erase = (lowerCacheBlock b).erase := by
  unfold lowerCacheBlock lowerCache Block.erase
  rw [← foldl_erase (e := CacheDef.erase), firstPositionalStr_erase]
  · rfl
  · intro c s
    cases s with
    | directive d =>
      dsimp only [Stmt.erase, Directive.erase]
      rw [positionalStrArray_erase, firstPositional_erase]
      split_ifs
      · cases firstPositional d.args with
        | none => rfl
        | some v => cases v <;> rfl
      · rfl
      · rfl
      · cases firstPositional d.args with
        | none => rfl
        | some v => cases v <;> rfl
      · rfl
    | _ => rfl

theorem lowerIpRules_erase (w : WafDef) :
    lowerIpRules (body.map Stmt.erase) w.erase = (lowerIpRules body w).erase := by
  refine foldl_erase (e := WafDef.erase) body (fun w s => ?_) w
  cases s with
  | directive d =>
    dsimp only [Stmt.erase, Directive.erase]
    rw [positionalStrArray_erase]
    split_ifs <;> rfl
  | _ => rfl

theorem lowerWafBlock_erase : lowerWafBlock b.erase = (lowerWafBlock b).erase := by
  unfold lowerWafBlock lowerWaf Block.erase
  rw [← foldl_erase (e := WafDef.erase), firstPositionalStr_erase]
  · rfl
  · intro w s
    cases s with
    | directive d =>
      dsimp only [Stmt.erase, Directive.erase]
      rw [firstPositionalStr_erase]
      split_ifs <;> rfl
    | block kw args body span =>
      dsimp only [Stmt.erase]
      rw [Stmt.eraseAll_eq_map, lowerIpRules_erase]
      split_ifs <;> rfl
    | route r => rfl

theorem lowerUsersBlock_erase : lowerUsersBlock b.erase = (lowerUsersBlock b).map Named.erase := by
  show (firstPositionalStr (b.args.map Arg.erase)).map _ = ((firstPositionalStr b.args).map _).map _
  rw [firstPositionalStr_erase, Option.map_map]
  rfl

end Bodies

/-! ## Routes and sites -/

def RefUse.erase (r : RefUse) : RefUse := { r with span := Span.zero }

def RouteDef.erase (r : RouteDef) : RouteDef := { r with refs := r.refs.map RefUse.erase, span := Span.zero }

def Host.erase (h : Host) : Host := { h with span := Span.zero }

def Site.erase (s : Site) : Site := ⟨s.hosts.map Host.erase, s.tls, s.routes.map RouteDef.erase, Span.zero⟩

section Routes

theorem buildHandler_erase (s : Step) : buildHandler s.erase = buildHandler s := by
  have hproxy : proxyHandler (s.args.map Arg.erase) = proxyHandler s.args := by
    rw [proxyHandler, proxyHandler, firstRef_erase, findSome?_map]
    refine congrArg (Handler.proxy _) (congrArg (findSome? · s.args) (funext fun a => ?_))
    rw [Function.comp_apply, argValue_erase, asStr_erase]
  simp only [buildHandler, Step.erase, firstPositionalStr_erase, namedStrArray_erase, statusArg_erase, namedStr_erase, hproxy]

theorem buildMiddleware_erase (s : Step) : buildMiddleware s.erase = buildMiddleware s := by
  simp only [buildMiddleware, Step.erase, firstPositionalStr_erase, namedStrArray_erase, namedStr_erase, firstRef_erase,
    firstPositional_erase, namedValue_erase]
  cases namedValue s.args "credentials" with
  | none =>
    cases firstPositional s.args with
    | none => rfl
    | some w => cases w <;> rfl
  | some v =>
    cases firstPositional s.args with
    | none => cases v <;> rfl
    | some w => cases v <;> cases w <;> rfl

mutual

theorem collectRefsValue_erase (span : Span) :
    (v : Value) → collectRefsValue Span.zero v.erase = (collectRefsValue span v).map RefUse.erase
  | .array items => collectItems_erase items
  | .ref _ => rfl
  | .str _ | .int _ | .float _ | .bool _ | .duration _ | .size _ | .rate _ _ | .secret _ | .env _ _ => rfl

theorem collectItems_erase : (items : List (Spanned Value)) →
    collectRefsValue.collectItems (Value.erase.eraseItems items) =
      (collectRefsValue.collectItems items).map RefUse.erase
  | [] => rfl
  | ⟨node, span⟩ :: rest => by
    rw [Value.erase.eraseItems, collectRefsValue.collectItems, collectRefsValue.collectItems, map_append,
      collectRefsValue_erase span node, collectItems_erase rest]

end

theorem collectRefs_erase (args : List Arg) : collectRefs (args.map Arg.erase) = (collectRefs args).map RefUse.erase := by
  rw [collectRefs, collectRefs, flatMap_map, map_flatMap]
  refine congrArg (flatMap · args) (funext fun a => ?_)
  rw [argValue_erase]
  exact collectRefsValue_erase _ _

theorem filter_zipIdx_erase (p : Str × Nat → Bool) (steps : List Step) :
    (steps.map Step.erase).zipIdx.filter (fun q => p (q.1.name.node, q.2)) =
      (steps.zipIdx.filter (fun q => p (q.1.name.node, q.2))).map (Prod.map Step.erase id) := by
  rw [zipIdx_map, filter_map]
  rfl

theorem terminalIdx_erase (r : Flow.Route) : (terminalIdx r.erase).1 = (terminalIdx r).1 := by
  have hidx : ((r.steps.map Step.erase).zipIdx.filter (fun q => handlers.contains q.1.name.node)).map (·.2) =
      (r.steps.zipIdx.filter (fun q => handlers.contains q.1.name.node)).map (·.2) := by
    rw [filter_zipIdx_erase (fun q => handlers.contains q.1), map_map]
    rfl
  have hplugin : (r.steps.map Step.erase).getLast?.any (fun s => "plugin.".toList.isPrefixOf s.name.node) =
      r.steps.getLast?.any (fun s => "plugin.".toList.isPrefixOf s.name.node) := by
    rw [getLast?_map, Option.any_map]
    rfl
  simp only [terminalIdx, Flow.Route.erase, hidx, hplugin, length_map]
  split
  · rfl
  · split <;> rfl
  · rfl

theorem lowerRoute_erase (r : Flow.Route) : (lowerRoute r.erase).1 = (lowerRoute r).1.erase := by
  have hmw : ((r.steps.map Step.erase).zipIdx.filter (fun q => some q.2 ≠ (terminalIdx r).1)).map (·.1) =
      ((r.steps.zipIdx.filter (fun q => some q.2 ≠ (terminalIdx r).1)).map (·.1)).map Step.erase := by
    rw [filter_zipIdx_erase (fun q => decide (some q.2 ≠ (terminalIdx r).1)), map_map, map_map]
    rfl
  have hmethod : (r.matcher.predicates.map Flow.Predicate.erase).find? (·.key = "method".toList) =
      (r.matcher.predicates.find? (·.key = "method".toList)).map Flow.Predicate.erase := by
    rw [find?_map]
    rfl
  refine RouteDef.ext rfl rfl ?_ ?_ ?_ ?_ ?_ rfl
  · show ((r.matcher.predicates.map Flow.Predicate.erase).find? (·.key = "method".toList)).map _ = _
    rw [hmethod, Option.map_map]
    rfl
  · show (((r.steps.map Step.erase).zipIdx.filter (fun q => some q.2 ≠ (terminalIdx r.erase).1)).map (·.1)).map _ = _
    rw [terminalIdx_erase, hmw, map_map]
    rfl
  · show (((r.steps.map Step.erase).zipIdx.filter (fun q => some q.2 ≠ (terminalIdx r.erase).1)).map (·.1)).filterMap _ = _
    rw [terminalIdx_erase, hmw, filterMap_map]
    exact filterMap_congr (fun s _ => buildMiddleware_erase s)
  · show ((terminalIdx r.erase).1.bind ((r.steps.map Step.erase)[·]?)).map buildHandler = _
    rw [terminalIdx_erase]
    show _ = ((terminalIdx r).1.bind (r.steps[·]?)).map buildHandler
    cases (terminalIdx r).1 with
    | none => rfl
    | some i =>
      show ((r.steps.map Step.erase)[i]?).map buildHandler = (r.steps[i]?).map buildHandler
      rw [getElem?_map, Option.map_map]
      exact congrArg (Option.map · _) (funext buildHandler_erase)
  · show (r.steps.map Step.erase).flatMap (fun s => collectRefs s.args) =
      (r.steps.flatMap (fun s => collectRefs s.args)).map RefUse.erase
    rw [flatMap_map, map_flatMap]
    exact congrArg (flatMap · _) (funext fun s => collectRefs_erase s.args)

theorem lowerHost_erase (a : Arg) : lowerHost a.erase = (lowerHost a).map Host.erase := by
  cases a with
  | named n v => rfl
  | positional v =>
    obtain ⟨node, span⟩ := v
    cases node <;> rfl

/-- What a statement of a site makes of its TLS mode. -/
def updTls (tls : TlsMode) : Stmt → TlsMode
  | .directive d => if d.keyword.node = "tls" then tlsMode d.args else tls
  | .block kw _ _ _ => if kw.node = "tls" then .manual else tls
  | .route _ => tls

theorem updTls_erase (tls : TlsMode) (stmt : Stmt) : updTls tls stmt.erase = updTls tls stmt := by
  cases stmt with
  | directive d => simp only [updTls, Stmt.erase, Directive.erase, tlsMode_erase]
  | block kw args body span => rfl
  | route r => rfl

theorem lowerSite_tls (args : List Arg) (body : List Stmt) (span : Span) :
    (lowerSite args body span).1.tls = body.foldl updTls .auto := by
  refine (foldl_hom (fun acc : Site × List Flow.Diagnostic => acc.1.tls) (fun acc stmt => ?_)).symm
  cases stmt with
  | directive d =>
    simp only [updTls, lowerSiteStmt]
    split_ifs <;> rfl
  | block kw args body span =>
    simp only [updTls, lowerSiteStmt]
    split_ifs <;> rfl
  | route r => rfl

theorem lowerSiteBlock_erase (b : Block) : (lowerSiteBlock b.erase).1 = (lowerSiteBlock b).1.erase := by
  refine Site.ext ?_ ?_ ?_ ?_
  · show (lowerSite (b.args.map Arg.erase) (b.body.map Stmt.erase) Span.zero).1.hosts =
      (lowerSite b.args b.body b.span).1.hosts.map Host.erase
    rw [lowerSite_hosts, lowerSite_hosts, filterMap_map, map_filterMap]
    exact filterMap_congr (fun a _ => lowerHost_erase a)
  · show (lowerSite (b.args.map Arg.erase) (b.body.map Stmt.erase) Span.zero).1.tls =
      (lowerSite b.args b.body b.span).1.tls
    rw [lowerSite_tls, lowerSite_tls, foldl_map]
    exact congrArg (fun f => foldl f TlsMode.auto _) (funext₂ updTls_erase)
  · show (lowerSite (b.args.map Arg.erase) (b.body.map Stmt.erase) Span.zero).1.routes =
      (lowerSite b.args b.body b.span).1.routes.map RouteDef.erase
    rw [lowerSite_routes, lowerSite_routes, routesIn_erase, map_map, map_map]
    exact map_congr_left (fun r _ => lowerRoute_erase r)
  · exact lowerSite_span _ _ _

end Routes

/-! ## Documents -/

def Config.erase (c : Config) : Config :=
  ⟨c.flowVersion, c.upstreams.map Upstream.erase, c.caches.map CacheDef.erase, c.wafs.map WafDef.erase,
    c.userSets.map Named.erase, c.sites.map Site.erase⟩

theorem lower_erase (ast : Ast) : (lower env ast.erase).1 = (lower env ast).1.erase := by
  have hstmts : ast.erase.stmts = ast.stmts.map Stmt.erase := Stmt.eraseAll_eq_map ast.stmts
  refine Config.ext ?_ ?_ ?_ ?_ ?_ ?_
  · show (lower env ast.erase).1.flowVersion = (lower env ast).1.flowVersion
    rw [lower_flowVersion, lower_flowVersion, hstmts, directivesOf_erase, foldl_map]
    simp only [Directive.erase, firstPositionalStr_erase]
  · show (lower env ast.erase).1.upstreams = (lower env ast).1.upstreams.map Upstream.erase
    rw [lower_upstreams, lower_upstreams, hstmts, blocks_erase, map_map, map_map]
    exact map_congr_left (fun b _ => lowerUpstreamBlock_erase b)
  · show (lower env ast.erase).1.caches = (lower env ast).1.caches.map CacheDef.erase
    rw [lower_caches, lower_caches, hstmts, blocks_erase, map_map, map_map]
    exact map_congr_left (fun b _ => lowerCacheBlock_erase b)
  · show (lower env ast.erase).1.wafs = (lower env ast).1.wafs.map WafDef.erase
    rw [lower_wafs, lower_wafs, hstmts, blocks_erase, map_map, map_map]
    exact map_congr_left (fun b _ => lowerWafBlock_erase b)
  · show (lower env ast.erase).1.userSets = (lower env ast).1.userSets.map Named.erase
    rw [lower_userSets, lower_userSets, hstmts, blocks_erase, filterMap_map, map_filterMap]
    exact filterMap_congr (fun b _ => lowerUsersBlock_erase b)
  · show (lower env ast.erase).1.sites = (lower env ast).1.sites.map Site.erase
    rw [lower_sites, lower_sites, hstmts, blocks_erase, map_map, map_map]
    exact map_congr_left (fun b _ => lowerSiteBlock_erase b)

end Pulsate.Conf
