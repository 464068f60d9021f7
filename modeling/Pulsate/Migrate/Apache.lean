import Pulsate.Migrate.Builder

/-!
# The Apache importer (`pulsate-migrate::apache`)
-/

namespace Pulsate.Migrate.Apache

structure Vhost where
  hosts : List Str
  tls : Bool
  routes : List Line
  docRoot : Option Str
  hasRootRoute : Bool
  deriving DecidableEq, Repr

def Vhost.empty : Vhost := ⟨[], false, [], none, false⟩

/-- A server name without its quotes, its scheme and its port. -/
def hostOnly (addr : Str) : Str :=
  let addr := ((addr.trimMatches '"').trimStartText "http://").trimStartText "https://"
  addr.takeWhile (fun c => c ≠ '/' && c ≠ ':')

/-- The length in bytes of what stands before the first blank after `route `. -/
def routeLen (route : Line) : Nat :=
  match route.text.stripPrefix "route " with
  | some rest => ((rest.splitWhitespace.head?).map Str.len).getD 0
  | none => 0

def mapProxyPass (args : List Str) (v : Vhost) (b : Builder) : Vhost × Builder :=
  match args with
  | path :: target :: _ =>
    if target = "!" then (v, b.note "ProxyPass" .Manual "exclusion (`!`) needs a manual route")
    else
      let handler := Handler.proxy (target.trimEndMatches '/')
      let v :=
        if path = "/" then
          { v with routes := v.routes ++ [.route .all handler], hasRootRoute := true }
        else { v with routes := v.routes ++ [.route (.below path) handler] }
      (v, b.note "ProxyPass" .Exact "mapped to proxy()")
  | _ => (v, b.note "ProxyPass" .Manual "unrecognized ProxyPass form")

/-- The code, the path and the URL of a `Redirect`. -/
def redirectParts (args : List Str) : Option (Str × Str × Str) :=
  match args with
  | [code, src, url] =>
    if code.all Char.isDigit then some (code, src, url)
    else if code = "permanent" then some ("301", src, url)
    else if code = "temp" ∨ code = "seeother" then some ("302", src, url)
    else none
  | [src, url] => some ("302", src, url)
  | _ => none

def mapRedirect (args : List Str) (v : Vhost) (b : Builder) : Vhost × Builder :=
  match redirectParts args with
  | some (code, src, url) =>
    let pattern := if src = "/".toList then "/*".toList else src
    let v := { v with routes := v.routes ++ [.route ⟨false, pattern⟩ (.redirect url code)] }
    let v := if pattern = "/*".toList then { v with hasRootRoute := true } else v
    (v, b.note "Redirect" .Exact "mapped to redirect()")
  | none => (v, b.note "Redirect" .Manual "unrecognized Redirect form")

/-- Directives that are flagged for a manual route. -/
def rules : List Str := ["proxypassmatch", "redirectmatch", "rewriterule", "rewritecond"]

/-- Containers that are flagged for a manual review. -/
def containers : List Str := ["<directory", "<location", "<files", "<ifmodule"]

/-- The words of a line inside a virtual host. -/
def mapWords (words : List Str) (v : Vhost) (b : Builder) : Vhost × Builder :=
  match words with
  | [] => (v, b)
  | directive :: args =>
    let name := directive.toAsciiLowercase
    if name = "servername" then
      match args.head? with
      | some h => ({ v with hosts := hostOnly h :: v.hosts }, b)
      | none => (v, b)
    else if name = "serveralias" then ({ v with hosts := v.hosts ++ args.map hostOnly }, b)
    else if name = "sslengine" then
      (if args.head?.any (fun a => a.eqIgnoreAsciiCase "on") then { v with tls := true } else v, b)
    else if name = "proxypass" then mapProxyPass args v b
    else if name = "documentroot" then ({ v with docRoot := args.head?.map (·.trimMatches '"') }, b)
    else if name = "redirect" then mapRedirect args v b
    else if name ∈ rules then (v, b.note directive .Manual "regex/rewrite rule needs a manual Flow route")
    else if name ∈ containers then (v, b.note directive .Manual "container block needs manual review")
    -- `ProxyPassReverse` and everything else
    else (v, b)

def mapDirective (line : Str) (v : Vhost) (b : Builder) : Vhost × Builder := mapWords line.splitWhitespace v b

/-- The document root takes the path `/` if no other route has it. -/
def claimRoot (v : Vhost) (b : Builder) : Vhost × Builder :=
  match v.hasRootRoute, v.docRoot with
  | false, some root =>
    ({ v with docRoot := none, routes := v.routes ++ [.route .all (.files root)], hasRootRoute := true },
      b.note "DocumentRoot" .Exact "mapped to files()")
  | _, _ => (v, b)

/-- The routes, the longest path first. -/
def emitRoutes (routes : List Line) (b : Builder) : Builder :=
  if routes = [] then
    (b.line placeholder.text).note "VirtualHost" .Manual "no recognized handler; added a placeholder route"
  else (routes.mergeSort (fun r s => routeLen s ≤ routeLen r)).foldl (fun b r => b.line r.text) b

/-- The part of `emit_vhost` after the document root. -/
def emitSite (v : Vhost) (b : Builder) : Builder :=
  let b := b.openBlock (header .site (if v.hosts = [] then [":default"] else v.hosts))
  let b := if v.tls then
      (b.line Line.tls.text).note "SSLEngine" .Approximate
        "TLS mapped to `tls auto` (ACME); explicit certs need a tls\x7b\x7d block"
    else b
  (emitRoutes v.routes b).close

def emitVhost (b : Builder) (v : Vhost) : Builder := emitSite (claimRoot v b).1 (claimRoot v b).2

def noteGlobal (line : Str) (b : Builder) : Builder :=
  if (line.splitWhitespace.head?.getD []).eqIgnoreAsciiCase "listen" then
    b.note "Listen" .Dropped "bind addresses are set via Flow listeners / CLI, not the site"
  else b

/-- What a line of the file is. -/
inductive Entry
  | blank
  | opening (tls : Bool)
  | closing
  | directive (line : Str)
  deriving DecidableEq, Repr

def entry (raw : Str) : Entry :=
  let line := raw.trim
  if line = [] ∨ line.head? = some '#' then .blank
  else if "<virtualhost".toList.isPrefixOf line.toAsciiLowercase then .opening (line.contains ":443")
  else if "</virtualhost".toList.isPrefixOf line.toAsciiLowercase then .closing
  else .directive line

/-- One turn of the loop over the lines; the virtual host being assembled is kept beside the builder. -/
def importEntry (st : Option Vhost × Builder) (e : Entry) : Option Vhost × Builder :=
  match e, st with
  | .blank, st => st
  | .opening tls, (_, b) => (some { Vhost.empty with tls }, b)
  | .closing, (some v, b) => (none, emitVhost b v)
  | .closing, (none, b) => (none, b)
  | .directive line, (some v, b) => ((mapDirective line v b).1, (mapDirective line v b).2)
  | .directive line, (none, b) => (none, noteGlobal line b)

def imported (text : Str) : Import :=
  let b := Builder.empty.line "# Imported from Apache by `pulsate import apache`. Review the notes."
  let (vhost, b) := (text.lines.map entry).foldl importEntry (none, b)
  -- a file may end without a closing tag
  let b := match vhost with
    | some v => emitVhost b v
    | none => b
  b.finish

/-! ## What the importer makes of a configuration -/

/-- What a line adds to the virtual host it stands in. -/
def Vhost.with (v : Vhost) (words : List Str) : Vhost := (mapWords words v Builder.empty).1

/-- The virtual host with the route that its document root gives. -/
def Vhost.claimed (v : Vhost) : Vhost := (claimRoot v Builder.empty).1

def Vhost.piece (v : Vhost) : Piece where
  keyword := .site
  words := if v.hosts = [] then [":default"] else v.hosts
  lines := (if v.tls then [.tls] else []) ++
    if v.claimed.routes = [] then [placeholder]
    else v.claimed.routes.mergeSort (fun r s => routeLen s ≤ routeLen r)

/-- The virtual hosts that are closed, by a tag or by the end of the file. One that is still open when another is
opened is lost. -/
def closed : Option Vhost → List Entry → List Vhost
  | v, [] => v.toList
  | v, .blank :: es => closed v es
  | _, .opening tls :: es => closed (some { Vhost.empty with tls }) es
  | v, .closing :: es => v.toList ++ closed none es
  | v, .directive line :: es => closed (v.map (·.with line.splitWhitespace)) es

def entries (text : Str) : List Entry := text.lines.map entry

/-- The virtual hosts of a text that become sites. -/
def vhosts (text : Str) : List Vhost := closed none (entries text)

/-- The blocks the importer opens. -/
def pieces (text : Str) : List Piece := (vhosts text).map Vhost.piece

end Pulsate.Migrate.Apache
