import Pulsate.Config.Compile
import Pulsate.Lib.Lists

/-!
# What compilation makes of statements, and what it checks
-/

namespace Pulsate.Conf

open Lib
open Pulsate.Flow (Span Diagnostic Stmt Arg Spanned Ast)

variable {env : Str → Option Str}

/-! ## Statements -/

theorem lowerStmt_site {c : Config} {ds : List Diagnostic} {kw : Spanned Str} {args : List Arg}
    {body : List Stmt} {span : Span} (h : kw.node = "site") :
    lowerStmt env (c, ds) (.block kw args body span) =
      ({ c with sites := c.sites ++ [(lowerSite args body span).1] }, ds ++ (lowerSite args body span).2) := by
  simp only [lowerStmt]
  split_ifs <;> grind

variable (kw : Spanned Str) (args : List Arg) (body : List Stmt)

/-- The statements of a body change neither the name nor the span. -/
theorem lowerUpstream_head :
    ((lowerUpstream env kw args body).name, (lowerUpstream env kw args body).span) =
      ((firstPositionalStr args).getD [], kw.span) := by
  unfold lowerUpstream
  rw [foldl_keeps (g := fun u : Upstream => (u.name, u.span))]
  intro u stmt
  cases stmt with
  | block kw args body span => simp only; split_ifs <;> rfl
  | directive d => simp only; split_ifs <;> rfl
  | route r => rfl

theorem lowerUpstream_name : (lowerUpstream env kw args body).name = (firstPositionalStr args).getD [] :=
  congrArg Prod.fst (lowerUpstream_head kw args body)

theorem lowerUpstream_span :
    (lowerUpstream env kw args body).span = kw.span := congrArg Prod.snd (lowerUpstream_head kw args body)

theorem lowerCache_head :
    ((lowerCache kw args body).name, (lowerCache kw args body).span) = ((firstPositionalStr args).getD [], kw.span) := by
  unfold lowerCache
  rw [foldl_keeps (g := fun c : CacheDef => (c.name, c.span))]
  intro c stmt
  cases stmt with
  | block kw args body span => rfl
  | directive d => dsimp only; split_ifs <;> grind
  | route r => rfl

theorem lowerCache_name :
    (lowerCache kw args body).name = (firstPositionalStr args).getD [] := congrArg Prod.fst (lowerCache_head kw args body)

theorem lowerCache_span : (lowerCache kw args body).span = kw.span := congrArg Prod.snd (lowerCache_head kw args body)

theorem lowerIpRules_head (w : WafDef) : ((lowerIpRules body w).name, (lowerIpRules body w).span) = (w.name, w.span) := by
  unfold lowerIpRules
  rw [foldl_keeps (g := fun w : WafDef => (w.name, w.span))]
  intro w stmt
  cases stmt with
  | block kw args body span => rfl
  | directive d => simp only; split_ifs <;> rfl
  | route r => rfl

theorem lowerWaf_head :
    ((lowerWaf kw args body).name, (lowerWaf kw args body).span) = ((firstPositionalStr args).getD [], kw.span) := by
  unfold lowerWaf
  rw [foldl_keeps (g := fun w : WafDef => (w.name, w.span))]
  intro w stmt
  cases stmt with
  | block kw args body span =>
    simp only
    split_ifs
    · exact lowerIpRules_head body w
    · rfl
  | directive d => simp only; split_ifs <;> rfl
  | route r => rfl

theorem lowerWaf_name :
    (lowerWaf kw args body).name = (firstPositionalStr args).getD [] := congrArg Prod.fst (lowerWaf_head kw args body)

theorem lowerWaf_span : (lowerWaf kw args body).span = kw.span := congrArg Prod.snd (lowerWaf_head kw args body)

theorem lowerSite_head (span : Span) :
    ((lowerSite args body span).1.hosts, (lowerSite args body span).1.span) = (args.filterMap lowerHost, span) := by
  unfold lowerSite
  rw [foldl_keeps (g := fun acc : Site × List Diagnostic => (acc.1.hosts, acc.1.span))]
  intro acc stmt
  cases stmt with
  | block kw args body span => simp only [lowerSiteStmt]; split_ifs <;> rfl
  | directive d => simp only [lowerSiteStmt]; split_ifs <;> rfl
  | route r => rfl

theorem lowerSite_hosts (span : Span) :
    (lowerSite args body span).1.hosts = args.filterMap lowerHost := congrArg Prod.fst (lowerSite_head args body span)

theorem lowerSite_span (span : Span) :
    (lowerSite args body span).1.span = span := congrArg Prod.snd (lowerSite_head args body span)

/-! ## Checks -/

theorem checkDupNames_eq (kind : Str) (seen : List Str) (l : List (Str × Span)) :
    checkDupNames kind seen l = (Lib.repeated Prod.fst seen l).map (fun e =>
      (Diagnostic.error .cfgDuplicate ("duplicate " ++ kind ++ " named `" ++ e.1 ++ "`") e.2).withHelp
        "each name must be unique; remove or rename the duplicate") := by
  induction l generalizing seen with
  | nil => rfl
  | cons e l ih =>
    rw [checkDupNames, Lib.repeated, ih, ih]
    split <;> rfl

theorem checkDupNames_eq_nil {kind : Str} {seen : List Str} {l : List (Str × Span)} :
    checkDupNames kind seen l = [] ↔ (l.map Prod.fst).Nodup ∧ ∀ e ∈ l, e.1 ∉ seen := by
  rw [checkDupNames_eq, List.map_eq_nil_iff, repeated_eq_nil]

theorem checkHostCollisions_eq (seen : List Str) (hosts : List Host) :
    checkHostCollisions seen hosts = (Lib.repeated Host.pattern seen hosts).map (fun host =>
      (Diagnostic.error .cfgHostCollision ("host `" ++ host.pattern ++ "` is claimed by more than one site")
        host.span).withHelp "two sites cannot bind the same host:port") := by
  induction hosts generalizing seen with
  | nil => rfl
  | cons host hosts ih =>
    rw [checkHostCollisions, Lib.repeated, ih, ih]
    split <;> rfl

theorem checkHostCollisions_eq_nil {seen : List Str} {hosts : List Host} :
    checkHostCollisions seen hosts = [] ↔ (hosts.map (·.pattern)).Nodup ∧ ∀ h ∈ hosts, h.pattern ∉ seen := by
  rw [checkHostCollisions_eq, List.map_eq_nil_iff, repeated_eq_nil]

/-! ## Compilation -/

theorem compile_eq_ok {text : Str} {g : Nat} {ast : Ast} {config : Config} (hp : Flow.parse text = .ok ast)
    (hl : lower env ast = (config, [])) (hv : validate config = []) :
    compile env text g = .ok ⟨config, g, []⟩ := by
  rw [compile, hp]
  simp only [hl, hv]
  rfl

end Pulsate.Conf
