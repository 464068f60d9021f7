import Pulsate.Config.Model
import Pulsate.Flow.Parser

/-!
# Compiling a text (`pulsate-config::compile`)

Lowering returns, with each result, the diagnostics it pushes, in the order it pushes them.
-/

namespace Pulsate.Conf

open Pulsate.Flow (Span Diagnostic Value Arg Step Stmt Directive Ast Spanned Failure)

/-! ## Arguments -/

def firstPositional (args : List Arg) : Option Value :=
  args.findSome? (fun
    | .positional v => some v.node
    | .named _ _ => none)

def asStr : Value → Option Str
  | .str s => some s
  | _ => none

def firstPositionalStr (args : List Arg) : Option Str := (firstPositional args).bind asStr

def namedValue (args : List Arg) (key : Str) : Option Value :=
  args.findSome? (fun
    | .named name value => if name.node = key then some value.node else none
    | .positional _ => none)

def namedStr (args : List Arg) (key : Str) : Option Str := (namedValue args key).bind asStr

/-- The strings of an array; anything else has none. -/
def strItems : Option Value → List Str
  | some (.array items) => items.filterMap (fun i => asStr i.node)
  | _ => []

def namedStrArray (args : List Arg) (key : Str) : List Str := strItems (namedValue args key)

def positionalStrArray (args : List Arg) : List Str := strItems (firstPositional args)

/-- The value of an argument of either kind. -/
def argValue : Arg → Spanned Value
  | .positional v => v
  | .named _ v => v

def firstRef (args : List Arg) : Option Str :=
  args.findSome? (fun a =>
    match (argValue a).node with
    | .ref r => some r
    | _ => none)

/-- `uN::try_from` on an `i64`. -/
def tryFrom (width : Nat) (i : Int) : Option Nat :=
  if 0 ≤ i ∧ i < 2 ^ width then some i.toNat else none

def asInt : Value → Option Int
  | .int i => some i
  | _ => none

def statusArg (args : List Arg) (default : Nat) : Nat :=
  let int := ((namedValue args "status").bind asInt).or ((firstPositional args).bind asInt)
  (int.bind (tryFrom 16)).getD default

/-- `${VAR:-default}` is looked up in the process environment `env`. -/
def resolveStr (env : Str → Option Str) : Value → Option Str
  | .str s => some s
  | .env var default => (env var).or default
  | _ => none

/-! ## Upstreams, caches, wafs -/

def lowerRetry (body : List Stmt) : Retry :=
  body.foldl (fun (r : Retry) stmt =>
    match stmt with
    | .directive d =>
      if d.keyword.node = "attempts" then
        match firstPositional d.args with
        | some (.int i) => { r with attempts := (tryFrom 32 i).getD 1 }
        | _ => r
      else if d.keyword.node = "on" then
        match firstPositional d.args with
        | some (.array items) =>
          items.foldl (fun (r : Retry) item =>
            match item.node with
            | .int i =>
              match tryFrom 16 i with
              | some s => { r with retryOnStatus := r.retryOnStatus ++ [s] }
              | none => r
            | .str s => if s = "connect_error" then { r with onConnectError := true } else r
            | _ => r) r
        | _ => r
      else r
    | _ => r) ⟨1, [], true⟩

def lowerBreaker (body : List Stmt) : Breaker :=
  body.foldl (fun (b : Breaker) stmt =>
    match stmt with
    | .directive d =>
      if d.keyword.node = "min_requests" ∨ d.keyword.node = "consecutive" then
        match firstPositional d.args with
        | some (.int i) => { b with consecutiveFailures := (tryFrom 32 i).getD 5 }
        | _ => b
      else if d.keyword.node = "open_for" then
        match firstPositional d.args with
        | some (.duration dur) => { b with openForSecs := dur.secs }
        | _ => b
      else b
    | _ => b) ⟨5, 15⟩

def lowerTarget (env : Str → Option Str) (args : List Arg) : Option Target :=
  ((firstPositional args).bind (resolveStr env)).map (fun url =>
    ⟨url, match namedValue args "weight" with
      | some (.int i) => (tryFrom 32 i).getD 1
      | _ => 1⟩)

def lowerUpstream (env : Str → Option Str) (keyword : Spanned Str) (args : List Arg)
    (body : List Stmt) : Upstream :=
  let init : Upstream :=
    { name := (firstPositionalStr args).getD []
      span := keyword.span
      targets := []
      policy := "round_robin"
      retry := none
      breaker := none }
  body.foldl (fun (u : Upstream) stmt =>
    match stmt with
    | .directive d =>
      if d.keyword.node = "target" then
        { u with targets := u.targets ++ (lowerTarget env d.args).toList }
      else if d.keyword.node = "policy" then
        { u with policy := (firstPositionalStr d.args).getD u.policy }
      else u
    | .block kw _ body _ =>
      if kw.node = "retry" then { u with retry := some (lowerRetry body) }
      else if kw.node = "breaker" then { u with breaker := some (lowerBreaker body) }
      else u
    | .route _ => u) init

def lowerCache (keyword : Spanned Str) (args : List Arg) (body : List Stmt) : CacheDef :=
  let init : CacheDef :=
    { name := (firstPositionalStr args).getD []
      span := keyword.span
      defaultTtlSecs := 60
      methods := ["GET", "HEAD"]
      vary := []
      swrSecs := 0 }
  body.foldl (fun (def_ : CacheDef) stmt =>
    match stmt with
    | .directive d =>
      if d.keyword.node = "default_ttl" then
        match firstPositional d.args with
        | some (.duration dur) => { def_ with defaultTtlSecs := dur.secs }
        | _ => def_
      else if d.keyword.node = "methods" then { def_ with methods := positionalStrArray d.args }
      else if d.keyword.node = "vary" then { def_ with vary := positionalStrArray d.args }
      else if d.keyword.node = "stale_while_revalidate" then
        match firstPositional d.args with
        | some (.duration dur) => { def_ with swrSecs := dur.secs }
        | _ => def_
      else def_
    | _ => def_) init

def lowerIpRules (body : List Stmt) (init : WafDef) : WafDef :=
  body.foldl (fun (def_ : WafDef) stmt =>
    match stmt with
    | .directive d =>
      if d.keyword.node = "deny" then { def_ with ipDeny := positionalStrArray d.args }
      else if d.keyword.node = "allow" then { def_ with ipAllow := positionalStrArray d.args }
      else def_
    | _ => def_) init

def lowerWaf (keyword : Spanned Str) (args : List Arg) (body : List Stmt) : WafDef :=
  let init : WafDef :=
    { name := (firstPositionalStr args).getD []
      span := keyword.span
      mode := "block"
      ipDeny := []
      ipAllow := [] }
  body.foldl (fun (def_ : WafDef) stmt =>
    match stmt with
    | .directive d =>
      if d.keyword.node = "mode" then
        { def_ with mode := (firstPositionalStr d.args).getD def_.mode }
      else def_
    | .block kw _ body _ => if kw.node = "ip" then lowerIpRules body def_ else def_
    | .route _ => def_) init

/-! ## Routes -/

/-- The names of terminal handlers. -/
def handlers : List Str := ["proxy", "files", "redirect", "respond", "grpc", "ws"]

/-- `proxy`: the first reference and the first string among the arguments, of either kind. -/
def proxyHandler (args : List Arg) : Handler :=
  .proxy (firstRef args) (args.findSome? (fun a => asStr (argValue a).node))

def buildHandler (step : Step) : Handler :=
  if step.name.node = "files" then
    .files ((firstPositionalStr step.args).getD []) (namedStrArray step.args "try")
  else if step.name.node = "respond" then
    .respond (statusArg step.args 200) ((namedStr step.args "body").getD [])
  else if step.name.node = "redirect" then
    .redirect (((namedStr step.args "to").or (firstPositionalStr step.args)).getD [])
      (statusArg step.args 308)
  else if step.name.node = "proxy" then proxyHandler step.args
  else .other step.name.node

def rateWindowSecs : Flow.RateWindow → Nat
  | .second => 1
  | .minute => 60
  | .hour => 3600

def buildMiddleware (step : Step) : Option MwSpec :=
  if step.name.node = "strip_prefix" then (firstPositionalStr step.args).map .stripPrefix
  else if step.name.node = "cors" then
    some (.cors (namedStrArray step.args "origins") (namedStrArray step.args "methods")
      (match namedValue step.args "credentials" with
        | some (.bool b) => b
        | _ => false))
  else if step.name.node = "rate_limit" then
    match firstPositional step.args with
    | some (.rate count per) =>
      some (.rateLimit count (rateWindowSecs per) ((namedStr step.args "key").getD "ip"))
    | _ => none
  else if step.name.node = "waf" then (firstRef step.args).map .waf
  else if step.name.node = "cache" then (firstRef step.args).map .cache
  else none

/-- Every reference in a value, arrays included. -/
def collectRefsValue (span : Span) : Value → List RefUse
  | .ref name => [⟨name, span⟩]
  | .array items => collectItems items
  | _ => []
where
  collectItems : List (Spanned Value) → List RefUse
    | [] => []
    | ⟨node, span⟩ :: rest => collectRefsValue span node ++ collectItems rest

def collectRefs (args : List Arg) : List RefUse :=
  args.flatMap (fun a => collectRefsValue (argValue a).span (argValue a).node)

/-- The index of the step that ends the route, and the diagnostic if the route has none or several. -/
def terminalIdx (route : Flow.Route) : Option Nat × List Diagnostic :=
  let isHandler (s : Step) : Bool := handlers.contains s.name.node
  let isPlugin (s : Step) : Bool := "plugin.".toList.isPrefixOf s.name.node
  match (route.steps.zipIdx.filter (fun p => isHandler p.1)).map (·.2) with
  | [i] => (some i, [])
  | [] =>
    -- the last step counts if it is a plugin
    if route.steps.getLast?.any isPlugin then (some (route.steps.length - 1), [])
    else (none, [(Diagnostic.error .cfgMissingField "route has no terminal handler"
      route.span).withHelp "end the pipeline with a handler, e.g. `~> proxy(@api)`"])
  | i :: j :: _ =>
    (some i, [(Diagnostic.error .cfgMultiHandler "a route has more than one terminal handler"
      ((route.steps[j]?.map (·.span)).getD route.span)).withHelp
        "a route has exactly one handler; make earlier steps middleware"])

def lowerRoute (route : Flow.Route) : RouteDef × List Diagnostic :=
  let (terminal, diags) := terminalIdx route
  let mwSteps := (route.steps.zipIdx.filter (fun p => some p.2 ≠ terminal)).map (·.1)
  ({ kind := route.matcher.kind
     pattern := route.matcher.pattern.node
     method := (route.matcher.predicates.find? (·.key = "method".toList)).map
       (fun p => p.value.toAsciiUppercase)
     middleware := mwSteps.map (·.name.node)
     mwSpecs := mwSteps.filterMap buildMiddleware
     handler := (terminal.bind (route.steps[·]?)).map buildHandler
     refs := route.steps.flatMap (fun s => collectRefs s.args)
     span := route.span }, diags)

/-! ## Sites -/

def lowerHost : Arg → Option Host
  | .positional ⟨.str s, span⟩ => some ⟨s, span⟩
  | _ => none

def tlsMode (args : List Arg) : TlsMode :=
  match firstPositional args with
  | some (.bool false) => .off
  | some (.str s) =>
    if s = "off" then .off else if s = "auto" then .auto else .manual
  | _ => .manual

def lowerSiteStmt (acc : Site × List Diagnostic) (stmt : Stmt) : Site × List Diagnostic :=
  let (site, diags) := acc
  match stmt with
  | .directive d => if d.keyword.node = "tls".toList then ({ site with tls := tlsMode d.args }, diags) else acc
  | .block kw _ _ _ => if kw.node = "tls".toList then ({ site with tls := .manual }, diags) else acc
  | .route r =>
    let (route, ds) := lowerRoute r
    ({ site with routes := site.routes ++ [route] }, diags ++ ds)

def lowerSite (args : List Arg) (body : List Stmt) (span : Span) : Site × List Diagnostic :=
  body.foldl lowerSiteStmt (⟨args.filterMap lowerHost, .auto, [], span⟩, [])

/-! ## Documents -/

/-- The versions this binary reads. -/
def supportedFlowVersions : List Str := ["1"]

def lowerStmt (env : Str → Option Str) (acc : Config × List Diagnostic) (stmt : Stmt) :
    Config × List Diagnostic :=
  let (config, diags) := acc
  match stmt with
  | .directive d =>
    if d.keyword.node = "flow_version".toList then
      match firstPositionalStr d.args with
      | some v =>
        ({ config with flowVersion := some v },
          if supportedFlowVersions.contains v then diags
          else diags ++ [(Diagnostic.error .cfgTypeMismatch
            ("unsupported flow_version ".toList ++ Flow.debugStr v) d.span).withHelp
              "this binary supports flow_version \"1\""])
      | none => acc
    else acc
  | .block kw args body span =>
    if kw.node = "upstream".toList then
      ({ config with upstreams := config.upstreams ++ [lowerUpstream env kw args body] }, diags)
    else if kw.node = "cache".toList then
      ({ config with caches := config.caches ++ [lowerCache kw args body] }, diags)
    else if kw.node = "waf".toList then
      ({ config with wafs := config.wafs ++ [lowerWaf kw args body] }, diags)
    else if kw.node = "users".toList then
      ({ config with userSets := config.userSets ++
          ((firstPositionalStr args).map (fun name => ⟨name, kw.span⟩)).toList }, diags)
    else if kw.node = "site".toList then
      let (site, ds) := lowerSite args body span
      ({ config with sites := config.sites ++ [site] }, diags ++ ds)
    else acc
  | .route _ => acc

def lower (env : Str → Option Str) (ast : Ast) : Config × List Diagnostic :=
  ast.stmts.foldl (lowerStmt env) (Config.empty, [])

/-! ## Validation -/

/-- One duplicate diagnostic for every name seen before. -/
def checkDupNames (kind : Str) (seen : List Str) : List (Str × Span) → List Diagnostic
  | [] => []
  | (name, span) :: rest =>
    if seen.contains name then
      (Diagnostic.error .cfgDuplicate
        ("duplicate " ++ kind ++ " named `" ++ name ++ "`") span).withHelp
          "each name must be unique; remove or rename the duplicate" :: checkDupNames kind seen rest
    else checkDupNames kind (seen ++ [name]) rest

def checkHostCollisions (seen : List Str) : List Host → List Diagnostic
  | [] => []
  | host :: rest =>
    if seen.contains host.pattern then
      (Diagnostic.error .cfgHostCollision
        ("host `" ++ host.pattern ++ "` is claimed by more than one site")
          host.span).withHelp "two sites cannot bind the same host:port" ::
        checkHostCollisions seen rest
    else checkHostCollisions (seen ++ [host.pattern]) rest

/-- The next row of the edit-distance table, from the character `ca` in row `i + 1` and the row above. -/
def levenshteinRow (ca : Char) (left : Nat) : List Char → List Nat → List Nat
  | cb :: b, diag :: up :: prev =>
    let here := min (min (up + 1) (left + 1)) (diag + if ca = cb then 0 else 1)
    left :: levenshteinRow ca here b (up :: prev)
  | _, _ => [left]

def levenshtein (a b : Str) : Nat :=
  (a.zipIdx.foldl (fun prev p => levenshteinRow p.1 (p.2 + 1) b prev) (List.range (b.length + 1))).getLastD 0

/-- The defined name closest to `name`, the first of several, within edit distance 2. -/
def nearest (name : Str) (defined : List Str) : Option Str :=
  let near := (defined.map (fun n => (levenshtein name n, n))).filter (fun p => p.1 ≤ 2)
  (near.foldl (fun (best : Option (Nat × Str)) p =>
    match best with
    | some b => if p.1 < b.1 then some p else best
    | none => some p) none).map (·.2)

def checkRef (defined : List Str) (r : RefUse) : List Diagnostic :=
  if defined.contains r.name then []
  else
    let diag := Diagnostic.error .cfgUnknownRef ("no definition named `" ++ r.name ++ "`") r.span
    match nearest r.name defined with
    | some suggestion => [diag.withHelp ("did you mean `@" ++ suggestion ++ "`?")]
    | none => [diag]

def checkCors (route : RouteDef) (mw : MwSpec) : List Diagnostic :=
  match mw with
  | .cors origins _ credentials =>
    if credentials ∧ origins.contains ['*'] then
      [(Diagnostic.error .cfgInvalidCors "cors(credentials=true) cannot be combined with a `*` origin"
        route.span).withHelp "list explicit origins, or set credentials=false"]
    else []
  | _ => []

def validate (config : Config) : List Diagnostic :=
  let routes := config.sites.flatMap (·.routes)
  checkDupNames "upstream" [] (config.upstreams.map (fun u => (u.name, u.span))) ++
    checkDupNames "cache" [] (config.caches.map (fun c => (c.name, c.span))) ++
    checkDupNames "waf" [] (config.wafs.map (fun w => (w.name, w.span))) ++
    checkDupNames "users" [] (config.userSets.map (fun n => (n.name, n.span))) ++
    routes.flatMap (fun route => route.refs.flatMap (checkRef config.definedNames)) ++
    routes.flatMap (fun route => route.mwSpecs.flatMap (checkCors route)) ++
    checkHostCollisions [] (config.sites.flatMap (·.hosts))

/-! ## Compilation -/

structure Compiled where
  config : Config
  generation : Nat
  warnings : List Diagnostic
  deriving DecidableEq, Repr

/-- How compilation ends without a configuration. -/
inductive CompileError
  | diags (ds : List Diagnostic)
  | panic
  | outOfFuel
  deriving DecidableEq, Repr

def compile (env : Str → Option Str) (text : Str) (generation : Nat) : Except CompileError Compiled :=
  match Flow.parse text with
  | .error (.diag d) => .error (.diags [d])
  | .error .panic => .error .panic
  | .error .outOfFuel => .error .outOfFuel
  | .ok ast =>
    let (config, lowered) := lower env ast
    let diags := lowered ++ validate config
    let errors := diags.filter (fun d => d.severity = .error)
    if errors ≠ [] then .error (.diags errors)
    else .ok ⟨config, generation, diags.filter (fun d => d.severity ≠ .error)⟩

end Pulsate.Conf
