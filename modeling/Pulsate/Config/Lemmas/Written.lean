import Pulsate.Config.Lemmas.Compile
import Pulsate.Config.Written

/-!
# Lowering, part by part

Each part of the lowered configuration collects what the statements of one kind give.
-/

namespace Pulsate.Conf

open List Lib
open Pulsate.Flow (Arg Ast Diagnostic Directive Span Spanned Stmt)

/-! ## Statements of one kind -/

section Kinds

variable {kind : Str} {kw : Spanned Str} {args : List Arg} {body : List Stmt} {span : Span}

theorem blocks_eq_flatMap (kind : Str) (stmts : List Stmt) : blocks kind stmts = stmts.flatMap (fun s => blocks kind [s]) := by
  induction stmts with
  | nil => rfl
  | cons s ss ih =>
    rw [flatMap_cons, ← ih]
    exact filterMap_append (l := [s])

theorem routesIn_eq_flatMap (stmts : List Stmt) : routesIn stmts = stmts.flatMap (fun s => routesIn [s]) := by
  induction stmts with
  | nil => rfl
  | cons s ss ih =>
    rw [flatMap_cons, ← ih]
    exact filterMap_append (l := [s])

theorem blocks_of_eq (h : kw.node = kind) : blocks kind [.block kw args body span] = [⟨kw, args, body, span⟩] := by
  simp only [blocks, filterMap_cons, h, if_true, filterMap_nil]

theorem blocks_of_ne (h : kw.node ≠ kind) : blocks kind [.block kw args body span] = [] := by
  simp only [blocks, filterMap_cons, h, if_false, filterMap_nil]

theorem mem_blocks {stmts : List Stmt} {b : Block} :
    b ∈ blocks kind stmts ↔ .block b.keyword b.args b.body b.span ∈ stmts ∧ b.keyword.node = kind := by
  rw [blocks, mem_filterMap]
  constructor
  · rintro ⟨s, hs, hb⟩
    cases s <;> grind
  · rintro ⟨hs, hk⟩
    exact ⟨_, hs, if_pos hk⟩

theorem mem_directives {stmts : List Stmt} {d : Directive} :
    d ∈ directives kind stmts ↔ .directive d ∈ stmts ∧ d.keyword.node = kind := by
  rw [directives, mem_filterMap]
  constructor
  · rintro ⟨s, hs, hd⟩
    cases s <;> grind
  · rintro ⟨hs, hk⟩
    exact ⟨_, hs, if_pos hk⟩

theorem siteRoutes_eq (ast : Ast) : siteRoutes ast = (blocks "site" ast.stmts).flatMap (fun b => routesIn b.body) := by
  rw [blocks_eq_flatMap, flatMap_assoc, siteRoutes]
  congr 1
  funext s
  cases s with
  | block kw args body span =>
    by_cases h : kw.node = "site"
    · rw [blocks_of_eq h, flatMap_singleton]
      exact if_pos h
    · rw [blocks_of_ne h, flatMap_nil]
      exact if_neg h
  | directive d => rfl
  | route r => rfl

end Kinds

/-! ## Sites -/

theorem lowerSite_routes (args : List Arg) (body : List Stmt) (span : Span) :
    (lowerSite args body span).1.routes = (routesIn body).map (fun r => (lowerRoute r).1) := by
  unfold lowerSite
  rw [foldl_collects (g := fun acc : Site × List Diagnostic => acc.1.routes)
    (h := fun s => (routesIn [s]).map (fun r => (lowerRoute r).1))]
  · rw [nil_append, routesIn_eq_flatMap body, map_flatMap]
  · intro acc s
    cases s with
    | block kw args body span =>
      simp only [lowerSiteStmt]
      split_ifs <;> exact (append_nil _).symm
    | directive d =>
      simp only [lowerSiteStmt]
      split_ifs <;> exact (append_nil _).symm
    | route r => rfl

theorem lowerSite_diags (args : List Arg) (body : List Stmt) (span : Span) :
    (lowerSite args body span).2 = (routesIn body).flatMap (fun r => (lowerRoute r).2) := by
  unfold lowerSite
  rw [foldl_collects (g := fun acc : Site × List Diagnostic => acc.2)
    (h := fun s => (routesIn [s]).flatMap (fun r => (lowerRoute r).2))]
  · rw [nil_append, routesIn_eq_flatMap body, flatMap_assoc]
  · intro acc s
    cases s with
    | block kw args body span =>
      simp only [lowerSiteStmt]
      split_ifs <;> exact (append_nil _).symm
    | directive d =>
      simp only [lowerSiteStmt]
      split_ifs <;> exact (append_nil _).symm
    | route r => exact congrArg _ (append_nil _).symm

/-! ## Documents -/

section Documents

variable (env : Str → Option Str)

def lowerUpstreamBlock (b : Block) : Upstream := lowerUpstream env b.keyword b.args b.body

def lowerCacheBlock (b : Block) : CacheDef := lowerCache b.keyword b.args b.body

def lowerWafBlock (b : Block) : WafDef := lowerWaf b.keyword b.args b.body

def lowerUsersBlock (b : Block) : Option Named := (firstPositionalStr b.args).map (⟨·, b.keyword.span⟩)

def lowerSiteBlock (b : Block) : Site × List Diagnostic := lowerSite b.args b.body b.span

/-- The diagnostics of a statement at the top level. -/
def stmtDiags (s : Stmt) : List Diagnostic := (lowerStmt env (Config.empty, []) s).2

/-- What the statement does to each part of the configuration. -/
structure Lowers (acc acc' : Config × List Diagnostic) (s : Stmt) : Prop where
  upstreams : acc'.1.upstreams = acc.1.upstreams ++ (blocks "upstream" [s]).map (lowerUpstreamBlock env)
  caches : acc'.1.caches = acc.1.caches ++ (blocks "cache" [s]).map lowerCacheBlock
  wafs : acc'.1.wafs = acc.1.wafs ++ (blocks "waf" [s]).map lowerWafBlock
  users : acc'.1.userSets = acc.1.userSets ++ (blocks "users" [s]).filterMap lowerUsersBlock
  sites : acc'.1.sites = acc.1.sites ++ (blocks "site" [s]).map (fun b => (lowerSiteBlock b).1)
  diags : acc'.2 = acc.2 ++ stmtDiags env s

variable {env}

theorem lowerStmt_lowers (acc : Config × List Diagnostic) (s : Stmt) : Lowers env acc (lowerStmt env acc s) s := by
  obtain ⟨c, ds⟩ := acc
  cases s with
  | block kw args body span =>
    constructor <;> simp only [lowerStmt, stmtDiags, blocks, filterMap_cons, filterMap_nil] <;> split_ifs <;>
      grind [lowerUpstreamBlock, lowerCacheBlock, lowerWafBlock, lowerSiteBlock, lowerUsersBlock]
  | directive d =>
    have hdiags : (lowerStmt env (c, ds) (.directive d)).2 = ds ++ stmtDiags env (.directive d) := by
      unfold stmtDiags lowerStmt
      dsimp only
      split
      · cases firstPositionalStr d.args with
        | none => exact (append_nil _).symm
        | some v =>
          dsimp only
          split
          · exact (append_nil _).symm
          · rfl
      · exact (append_nil _).symm
    have hparts : (lowerStmt env (c, ds) (.directive d)).1 =
        { c with flowVersion := (lowerStmt env (c, ds) (.directive d)).1.flowVersion } := by
      unfold lowerStmt
      dsimp only
      split
      · cases firstPositionalStr d.args <;> rfl
      · rfl
    constructor <;> first | exact hdiags | (rw [hparts]; exact (append_nil _).symm)
  | route r => constructor <;> exact (append_nil _).symm

theorem lower_upstreams (env : Str → Option Str) (ast : Ast) :
    (lower env ast).1.upstreams = (blocks "upstream" ast.stmts).map (lowerUpstreamBlock env) := by
  rw [lower, foldl_collects (g := fun acc : Config × List Diagnostic => acc.1.upstreams)
    (fun acc s => (lowerStmt_lowers acc s).upstreams), blocks_eq_flatMap, map_flatMap]
  rfl

theorem lower_caches (env : Str → Option Str) (ast : Ast) :
    (lower env ast).1.caches = (blocks "cache" ast.stmts).map lowerCacheBlock := by
  rw [lower, foldl_collects (g := fun acc : Config × List Diagnostic => acc.1.caches)
    (fun acc s => (lowerStmt_lowers acc s).caches), blocks_eq_flatMap, map_flatMap]
  rfl

theorem lower_wafs (env : Str → Option Str) (ast : Ast) :
    (lower env ast).1.wafs = (blocks "waf" ast.stmts).map lowerWafBlock := by
  rw [lower, foldl_collects (g := fun acc : Config × List Diagnostic => acc.1.wafs)
    (fun acc s => (lowerStmt_lowers acc s).wafs), blocks_eq_flatMap, map_flatMap]
  rfl

theorem lower_userSets (env : Str → Option Str) (ast : Ast) :
    (lower env ast).1.userSets = (blocks "users" ast.stmts).filterMap lowerUsersBlock := by
  rw [lower, foldl_collects (g := fun acc : Config × List Diagnostic => acc.1.userSets)
    (fun acc s => (lowerStmt_lowers acc s).users), blocks_eq_flatMap, filterMap_flatMap]
  rfl

theorem lower_sites (env : Str → Option Str) (ast : Ast) :
    (lower env ast).1.sites = (blocks "site" ast.stmts).map (fun b => (lowerSiteBlock b).1) := by
  rw [lower, foldl_collects (g := fun acc : Config × List Diagnostic => acc.1.sites)
    (fun acc s => (lowerStmt_lowers acc s).sites), blocks_eq_flatMap, map_flatMap]
  rfl

theorem lower_diags (env : Str → Option Str) (ast : Ast) : (lower env ast).2 = ast.stmts.flatMap (stmtDiags env) := by
  rw [lower, foldl_collects (g := fun acc : Config × List Diagnostic => acc.2)
    (fun acc s => (lowerStmt_lowers acc s).diags)]
  rfl

end Documents

end Pulsate.Conf
