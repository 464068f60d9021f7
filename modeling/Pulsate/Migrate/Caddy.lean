import Pulsate.Migrate.Builder

/-!
# The Caddy importer (`pulsate-migrate::caddy`)
-/

namespace Pulsate.Migrate.Caddy

/-- A site address without its scheme and its path. -/
def hostOnly (addr : Str) : Str :=
  ((addr.trimStartText "http://").trimStartText "https://").takeWhile (· ≠ '/')

structure State where
  site : Option (List Str)
  root : Option Str
  routes : List Line
  builder : Builder

def mapDirective (line : Str) (st : State) : State :=
  match line.splitWhitespace with
  | [] => st
  | directive :: args =>
    let push (r : Line) (fidelity : Fidelity) (message : Str) : State :=
      { st with routes := st.routes ++ [r], builder := st.builder.note directive fidelity message }
    if directive = "reverse_proxy" then
      match args.head? with
      | some target => push (.route .all (.proxy (withScheme target))) .Exact "mapped to proxy()"
      | none => st
    else if directive = "root" then { st with root := args.getLast? }
    else if directive = "file_server" then
      push (.route .all (.files (st.root.getD "."))) .Exact "mapped to files()"
    else if directive = "redir" then
      match args with
      | [src, url, code] => push (.route ⟨false, src⟩ (.redirect url code)) .Exact "mapped to redirect()"
      | [src, url] => push (.route ⟨false, src⟩ (.redirect url "302")) .Approximate "default status 302 assumed"
      | _ => { st with builder := st.builder.note "redir" .Manual "unrecognized redir form" }
    else if directive = "respond" then
      let code := (args.findSome? (Str.parseUnsigned 16)).getD 200
      push (.route .all (.respond (Nat.toDigits 10 code))) .Approximate "mapped to respond()"
    else if directive = "tls" then
      { st with
        builder := st.builder.note "tls" .Approximate
          "Caddy TLS maps to `tls auto`; explicit certs need a tls\x7b\x7d block" }
    else { st with builder := st.builder.note directive .Manual "Caddy directive needs manual review" }

def emitSite (b : Builder) (hosts : List Str) (routes : List Line) : Builder :=
  let b := b.openBlock (header .site (if hosts = [] then [":default"] else hosts))
  let b := b.line Line.tls.text
  let b := if routes = [] then
      (b.line placeholder.text).note "site" .Manual
        "no recognized handler; added a placeholder route"
    else routes.foldl (fun b r => b.line r.text) b
  b.close

def importLine (st : State) (raw : Str) : State :=
  let line := raw.trim
  if line = [] ∨ line.head? = some '#' then st
  else
    match line.stripSuffix "\x7b" with
    | some head =>
      { st with site := some ((head.splitWhitespace.map hostOnly).filter (· ≠ [])), root := none, routes := [] }
    | none =>
      if line = "\x7d" then
        match st.site with
        | some hosts => ⟨none, none, [], emitSite st.builder hosts st.routes⟩
        | none => { st with routes := [] }
      else mapDirective line st

def State.start : State :=
  ⟨none, none, [], Builder.empty.line "# Imported from Caddy by `pulsate import caddy`. Review the notes."⟩

def imported (text : Str) : Import := (text.lines.foldl importLine State.start).builder.finish

/-! ## What the importer makes of a configuration -/

def sitePiece (hosts : List Str) (routes : List Line) : Piece where
  keyword := .site
  words := if hosts = [] then [":default"] else hosts
  lines := .tls :: if routes = [] then [placeholder] else routes

/-- The block that a line ends. -/
def State.ends (st : State) (raw : Str) : List Piece :=
  if raw.trim = "\x7d" then st.site.toList.map (fun hosts => sitePiece hosts st.routes) else []

def State.pieces : State → List Str → List Piece
  | _, [] => []
  | st, raw :: raws => st.ends raw ++ (importLine st raw).pieces raws

/-- The blocks the importer opens. -/
def pieces (text : Str) : List Piece := State.start.pieces text.lines

end Pulsate.Migrate.Caddy
