import Pulsate.Lib.OrdMap
import Pulsate.Migrate.Builder
import Pulsate.Std.Path

/-!
# The HAProxy importer (`pulsate-migrate::haproxy`)
-/

namespace Pulsate.Migrate.Haproxy

open Pulsate.Lib

structure Section where
  kind : Str
  name : Str
  lines : List (List Str)
  deriving DecidableEq, Repr

def stripComment (line : Str) : Str := line.takeWhile (· ≠ '#')

def headers : List Str :=
  ["global", "defaults", "frontend", "backend", "listen"]

/-- A line goes to the section it opens, or to the last one. -/
def addLine (sections : List Section) (raw : Str) : List Section :=
  match (stripComment raw).splitWhitespace with
  | [] => sections
  | first :: rest =>
    let indented := raw.head? = some ' ' ∨ raw.head? = some '\t'
    if ¬ indented ∧ first ∈ headers then sections ++ [⟨first, rest.head?.getD [], []⟩]
    else
      match sections.getLast? with
      | some cur => sections.dropLast ++ [{ cur with lines := cur.lines ++ [first :: rest] }]
      | none => sections

def parse (text : Str) : List Section := text.lines.foldl addLine []

def serverTargets (s : Section) : List Str :=
  s.lines.filterMap (fun l => if l.head? = some "server".toList then l[2]?.map withScheme else none)

/-- The sections that sites can refer to by name; a later one of the same name replaces an earlier one. -/
def poolEntries (sections : List Section) : List (Str × List Str) :=
  sections.filterMap (fun s =>
    if (s.kind = "backend".toList ∨ s.kind = "listen".toList) ∧ serverTargets s ≠ [] then
      some (s.name, serverTargets s)
    else none)

def upstreams (sections : List Section) : OrdMap Str (List Str) := (∅ : OrdMap Str (List Str)).insertAll (poolEntries sections)

/-- The redirect that the slot of a backend encodes, or a proxy to the backend. -/
def backendHandler (be : Str) : Handler :=
  match (be.stripPrefix "__redirect:").bind (·.rsplitOnce ':') with
  | some (url, code) => .redirect url code
  | none => .proxy ("@" ++ be)

/-- The word after the first occurrence of another one. -/
def wordAfter (l : List Str) (w : Str) : Option Str := (l.dropWhile (· ≠ w))[1]?

def mapRedirect (l : List Str) (b : Builder) (routes : List (Pattern × Str)) : Builder × List (Pattern × Str) :=
  match l[1]?, l[2]? with
  | some form, some url =>
    if form = "location".toList ∨ form = "prefix".toList then
      let code := (wordAfter l "code").getD "302"
      (b.note "redirect" .Approximate "mapped to redirect()",
        routes ++ [(Pattern.all, "__redirect:".toList ++ url ++ ":".toList ++ code)])
    else (b.note "redirect" .Manual "unrecognized redirect form", routes)
  | _, _ => (b.note "redirect" .Manual "unrecognized redirect form", routes)

/-- What the loop of `map_site` has gathered so far. -/
structure Gathered where
  hosts : List Str
  tls : Bool
  acls : OrdMap Str Pattern
  routes : List (Pattern × Str)
  defaultBackend : Option Str
  builder : Builder

/-- What a path condition is as a route pattern. -/
def aclPattern (kind val : Str) : Pattern := if kind = "path" then ⟨true, val⟩ else .below val

def gatherAcl (st : Gathered) (l : List Str) : Gathered :=
  match l[1]?, l[2]?, l[3]? with
  | some name, some kind, some val =>
    if "path".toList.isPrefixOf kind then { st with acls := st.acls.insert name (aclPattern kind val) }
    else if "hdr".toList.isPrefixOf kind ∨ kind = "ssl_fc_sni".toList then { st with hosts := st.hosts ++ [val] }
    else st
  | _, _, _ => st

def gatherUse (st : Gathered) (l : List Str) : Gathered :=
  match (wordAfter l "if").bind st.acls.get? with
  | some pat => { st with routes := st.routes ++ [(pat, l[1]?.getD [])] }
  | none =>
    { st with
      builder := st.builder.note "use_backend" .Manual "conditional needs a non-path ACL translated by hand" }

def gather (st : Gathered) (l : List Str) : Gathered :=
  match l with
  | [] => st
  | first :: _ =>
    if first = "bind".toList then if "ssl".toList ∈ l then { st with tls := true } else st
    else if first = "acl".toList then gatherAcl st l
    else if first = "use_backend".toList then gatherUse st l
    else if first = "default_backend".toList then { st with defaultBackend := l[1]? }
    else if first = "redirect".toList then
      let (b, routes) := mapRedirect l st.builder st.routes
      { st with builder := b, routes }
    else st

/-- The catch-all route, or a placeholder for a site without any route. -/
def emitDefault (defaultBackend : Option Str) (routes : List (Pattern × Str)) (b : Builder) : Builder :=
  match defaultBackend with
  | some be =>
    (b.line (Line.route .all (backendHandler be)).text).note "default_backend" .Exact "mapped to the catch-all route"
  | none =>
    if routes = [] then
      (b.line placeholder.text).note "frontend" .Manual "no backend resolved; added a placeholder route"
    else b

/-- The part of `map_site` after its loop. -/
def emitSite (name : Str) (pools : OrdMap Str (List Str)) (st : Gathered) : Builder :=
  let hosts := if st.hosts = [] then [":default".toList] else st.hosts
  let b := st.builder.openBlock (header .site hosts)
  let b := if st.tls then
      (b.line Line.tls.text).note "bind ssl" .Approximate
        "TLS mapped to `tls auto` (ACME); explicit crt needs a tls\x7b\x7d block"
    else b
  -- a `listen` section with servers of its own and no routing proxies to them
  let defaultBackend :=
    if st.defaultBackend = none ∧ st.routes = [] ∧ (pools.get? name).isSome then some name else st.defaultBackend
  let b := st.routes.foldl (fun b route =>
    (b.line (Line.route route.1 (backendHandler route.2)).text).note "use_backend" .Exact
      "mapped to a path route + proxy()") b
  (emitDefault defaultBackend st.routes b).close

def mapSite (s : Section) (pools : OrdMap Str (List Str)) (b : Builder) : Builder :=
  emitSite s.name pools (s.lines.foldl gather ⟨[], false, ∅, [], none, b⟩)

def emitPool (b : Builder) (pool : Str × List Str) : Builder :=
  let b := b.openBlock (header .upstream [pool.1])
  let b := pool.2.foldl (fun b t => b.line (Line.target t).text) b
  b.close.note "backend" .Exact "mapped to a Flow upstream pool"

def isSite (s : Section) : Bool := s.kind == "frontend" || s.kind == "listen"

def imported (order : Iteration Str (List Str)) (text : Str) : Import :=
  let sections := parse text
  let b := Builder.empty.line "# Imported from HAProxy by `pulsate import haproxy`. Review the notes."
  let pools := upstreams sections
  let b := (order.arrange pools.entries).foldl emitPool b
  let b := sections.foldl (fun b s => if isSite s then mapSite s pools b else b) b
  b.finish

/-! ## What the importer makes of a configuration -/

/-- What the loop gathers from a section. -/
def gathered (s : Section) : Gathered := s.lines.foldl gather ⟨[], false, ∅, [], none, Builder.empty⟩

/-- The backend of the catch-all route. -/
def defaultOf (s : Section) (pools : OrdMap Str (List Str)) : Option Str :=
  if (gathered s).defaultBackend = none ∧ (gathered s).routes = [] ∧ (pools.get? s.name).isSome then some s.name
  else (gathered s).defaultBackend

def defaultLines (defaultBackend : Option Str) (routes : List (Pattern × Str)) : List Line :=
  match defaultBackend with
  | some be => [.route .all (backendHandler be)]
  | none => if routes = [] then [placeholder] else []

def sitePiece (pools : OrdMap Str (List Str)) (s : Section) : Piece where
  keyword := .site
  words := if (gathered s).hosts = [] then [":default"] else (gathered s).hosts
  lines := (if (gathered s).tls then [.tls] else []) ++
    (gathered s).routes.map (fun r => .route r.1 (backendHandler r.2)) ++
    defaultLines (defaultOf s pools) (gathered s).routes

def poolPiece (pool : Str × List Str) : Piece := ⟨.upstream, [pool.1], pool.2.map .target⟩

/-- The sections that become sites. -/
def siteSections (text : Str) : List Section := (parse text).filter isSite

def pools (text : Str) : OrdMap Str (List Str) := upstreams (parse text)

/-- The blocks the importer opens. -/
def pieces (order : Iteration Str (List Str)) (text : Str) : List Piece :=
  (order.arrange (pools text).entries).map poolPiece ++ (siteSections text).map (sitePiece (pools text))

end Pulsate.Migrate.Haproxy
