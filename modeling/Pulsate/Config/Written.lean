import Pulsate.Config.Predicates

/-!
# What a document writes

The blocks, directives and routes of a document, and what the rules of the language ask of them. Nothing here goes
through the compiler.
-/

namespace Pulsate.Conf

open Pulsate.Flow (Arg Ast Directive Span Spanned Step Stmt Value)

/-! ## Statements -/

structure Block where
  keyword : Spanned Str
  args : List Arg
  body : List Stmt
  span : Span

/-- The blocks with a keyword. -/
def blocks (kind : Str) (stmts : List Stmt) : List Block :=
  stmts.filterMap (fun
    | .block kw args body span => if kw.node = kind then some ⟨kw, args, body, span⟩ else none
    | _ => none)

/-- The directives with a keyword. -/
def directives (kind : Str) (stmts : List Stmt) : List Directive :=
  stmts.filterMap (fun
    | .directive d => if d.keyword.node = kind then some d else none
    | _ => none)

def routesIn (stmts : List Stmt) : List Flow.Route :=
  stmts.filterMap (fun
    | .route r => some r
    | _ => none)

/-! ## Names -/

/-- The name of a block; one that is not a string counts as empty. -/
def Block.name (b : Block) : Str := (firstPositionalStr b.args).getD []

def upstreamNames (ast : Ast) : List Str := (blocks "upstream" ast.stmts).map Block.name

def cacheNames (ast : Ast) : List Str := (blocks "cache" ast.stmts).map Block.name

def wafNames (ast : Ast) : List Str := (blocks "waf" ast.stmts).map Block.name

/-- A set of users without a string for a name is no definition. -/
def userNames (ast : Ast) : List Str := (blocks "users" ast.stmts).filterMap (fun b => firstPositionalStr b.args)

def hostPatterns (ast : Ast) : List Str :=
  (blocks "site" ast.stmts).flatMap (fun b => (b.args.filterMap lowerHost).map (·.pattern))

/-! ## Steps -/

/-- The value is the reference, or an array that holds it at some depth. -/
inductive Refers (name : Str) : Value → Prop
  | here : Refers name (.ref name)
  | item {items : List (Spanned Value)} {i : Spanned Value} (h : i ∈ items) (hi : Refers name i.node) :
      Refers name (.array items)

/-- Some argument of the step holds the reference. -/
def Mentions (name : Str) (s : Step) : Prop := ∃ a ∈ s.args, Refers name (argValue a).node

/-- One step is a terminal handler, or none is and the last one is a plugin. -/
def EndsOnce (rt : Flow.Route) : Prop :=
  (rt.steps.filter (fun s => s.name.node ∈ handlers)).length = 1 ∨
    (∀ s ∈ rt.steps, s.name.node ∉ handlers) ∧ ∃ s, rt.steps.getLast? = some s ∧ "plugin." <+: s.name.node

/-- Every origin is allowed, with credentials. -/
def OpenCors (s : Step) : Prop :=
  s.name.node = "cors" ∧ namedValue s.args "credentials" = some (.bool true) ∧
    ['*'] ∈ namedStrArray s.args "origins"

/-- The names of the steps that guard a route. -/
def protective : List Str := ["strip_prefix", "cors", "rate_limit", "waf", "cache"]

/-- What a guard asks for. -/
inductive Asks (s : Step) : MwSpec → Prop
  | stripPrefix {path : Str} (name : s.name.node = "strip_prefix")
      (arg : firstPositional s.args = some (.str path)) : Asks s (.stripPrefix path)
  | cors {credentials : Bool} (name : s.name.node = "cors")
      (arg : credentials ↔ namedValue s.args "credentials" = some (.bool true)) :
      Asks s (.cors (namedStrArray s.args "origins") (namedStrArray s.args "methods") credentials)
  | rateLimit {count : Nat} {per : Flow.RateWindow} (name : s.name.node = "rate_limit")
      (arg : firstPositional s.args = some (.rate count per)) :
      Asks s (.rateLimit count (rateWindowSecs per) ((namedStr s.args "key").getD "ip"))
  | waf {block : Str} (name : s.name.node = "waf") (arg : firstRef s.args = some block) : Asks s (.waf block)
  | cache {block : Str} (name : s.name.node = "cache") (arg : firstRef s.args = some block) : Asks s (.cache block)

/-! ## Documents -/

/-- The rules for a document. -/
structure Acceptable (ast : Ast) : Prop where
  ends : ∀ rt ∈ siteRoutes ast, EndsOnce rt
  upstreams : (upstreamNames ast).Nodup
  caches : (cacheNames ast).Nodup
  wafs : (wafNames ast).Nodup
  users : (userNames ast).Nodup
  hosts : (hostPatterns ast).Nodup
  refs : ∀ rt ∈ siteRoutes ast, ∀ s ∈ rt.steps, ∀ name, Mentions name s →
    name ∈ upstreamNames ast ∨ name ∈ cacheNames ast ∨ name ∈ wafNames ast ∨ name ∈ userNames ast
  cors : ∀ rt ∈ siteRoutes ast, ∀ s ∈ rt.steps, ¬ OpenCors s
  versions : ∀ d ∈ directives "flow_version" ast.stmts, ∀ v, firstPositional d.args = some (.str v) →
    v ∈ supportedFlowVersions

end Pulsate.Conf
