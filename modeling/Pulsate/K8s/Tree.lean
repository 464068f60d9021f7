import Pulsate.K8s.Plan

/-!
# The intended tree

What the objects should parse to, with the type each value is meant to have.
-/

namespace Pulsate.K8s

open Pulsate.Flow (Span Stmt Value Arg)

/-! ## Statements -/

def wordArg (v : Value) : Arg := .positional ⟨v, Span.zero⟩

def directiveStmt (keyword : Str) (args : List Arg) : Stmt := .directive ⟨⟨keyword, Span.zero⟩, args, Span.zero⟩

def blockStmt (keyword : Str) (arg : Value) (body : List Stmt) : Stmt :=
  .block ⟨keyword, Span.zero⟩ [wordArg arg] body Span.zero

def Target.stmt (t : Target) : Stmt :=
  directiveStmt "target" (wordArg (.str t.url) ::
    if t.weight = 1 then [] else [.named ⟨"weight", Span.zero⟩ ⟨.int t.weight, Span.zero⟩])

def upstreamStmt (name : Str) (targets : List Target) : Stmt := blockStmt "upstream" (.str name) (targets.map Target.stmt)

/-- The block of an emitted rule. -/
def Emitted.stmt (e : Emitted) : Stmt := upstreamStmt e.upName e.targets

def MatchKind.toFlow : MatchKind → Flow.MatchKind
  | .Exact => .Exact
  | .Prefix => .Prefix

/-- A route with the match's pattern, its method as the only predicate, and one step. -/
def Entry.tree (n : Entry) : Flow.Route where
  matcher :=
    { kind := n.kind.toFlow
      pattern := ⟨n.pattern, Span.zero⟩
      predicates := n.method.toList.map (fun m => ⟨"method", m, Span.zero⟩)
      span := Span.zero }
  steps := [⟨⟨"proxy", Span.zero⟩, [wordArg (.ref n.upstream)], true, Span.zero⟩]
  span := Span.zero

def Entry.stmt (n : Entry) : Stmt := .route n.tree

def tlsStmt (https : Bool) : Stmt :=
  directiveStmt "tls" [wordArg (if https then .str "auto" else .bool false)]

/-- A site whose name is read as the value `v`. -/
def siteStmt (v : Value) (https : Bool) (entries : List Entry) : Stmt :=
  blockStmt "site" v (tlsStmt https :: entries.map Entry.stmt)

/-! ## Trees -/

/-- One upstream for each emitted rule, one site for each host, and in it one route for each distinct match
of the rules on the host. -/
def Intended (managed : Lib.OrdMap (Str ×ₗ Str) Gateway) (routes : List HTTPRoute) (stmts : List Stmt) : Prop :=
  ∃ (ups : List Stmt) (hosts : List Str) (entries : Str → List Entry),
    stmts = ups ++ hosts.map (fun h => siteStmt (.str h)
      ((placements managed routes).any (fun p => p.host = h ∧ p.https)) (entries h)) ∧
    ups.Perm ((emitted managed routes).map Emitted.stmt) ∧
    hosts.Nodup ∧ (∀ h, h ∈ hosts ↔ ∃ p ∈ placements managed routes, p.host = h) ∧
    ∀ h, (entries h).Nodup ∧
      ∀ n, n ∈ entries h ↔ ∃ p ∈ placements managed routes, p.host = h ∧ n ∈ p.toEmitted.entries

/-- The tree of a plan whose site names are read as `host` says. -/
def Plan.stmts (p : Plan) (host : Str → Value) : List Stmt :=
  p.upstreams.entries.map (fun e => upstreamStmt e.1 e.2) ++
    p.sites.entries.map (fun e => siteStmt (host e.1) e.2.https e.2.routes.values)

end Pulsate.K8s
