import Pulsate.Migrate.Builder

/-!
# The nginx importer (`pulsate-migrate::nginx`)
-/

namespace Pulsate.Migrate.Nginx

/-- A directive, `name args... ;` or `name args... { block }`. -/
structure Node where
  name : Str
  args : List Str
  block : List Node

/-! ## Reading -/

/-- `word` is what has been read of the word so far. A comment neither ends a word nor starts one. -/
def tokenizeFrom (inComment : Bool) (word : Str) : Str → List Str
  | [] => Str.pushWord word
  | c :: s =>
    if inComment ∧ c ≠ '\n' then tokenizeFrom true word s
    else if c = '#' then tokenizeFrom true word s
    else if c = '{' ∨ c = '}' ∨ c = ';' then Str.pushWord word ++ [c] :: tokenizeFrom false [] s
    else if Str.isWhitespace c then Str.pushWord word ++ tokenizeFrom false [] s
    else tokenizeFrom false (word ++ [c]) s

def tokenize (text : Str) : List Str := tokenizeFrom false [] text

/-- The node of a head that is not empty. -/
def splitHead (head : List Str) (block : List Node) : List Node :=
  match head with
  | [] => []
  | name :: args => [⟨name, args, block⟩]

/-- Returns the nodes and the tokens past the closing brace. A head that is not ended yet is lost there. -/
def parseBlockFuel : Nat → List Str → List Str → List Node × List Str
  | 0, _, tokens => ([], tokens)
  | _ + 1, _, [] => ([], [])
  | fuel + 1, head, t :: tokens =>
    if t = "\x7d" then ([], tokens)
    else if t = ";" then
      let (nodes, rest) := parseBlockFuel fuel [] tokens
      (splitHead head [] ++ nodes, rest)
    else if t = "\x7b" then
      let (block, next) := parseBlockFuel fuel [] tokens
      let (nodes, rest) := parseBlockFuel fuel [] next
      (splitHead head block ++ nodes, rest)
    else parseBlockFuel fuel (head ++ [t]) tokens

/-- Every step takes a token. -/
def parseBlock (tokens : List Str) : List Node × List Str := parseBlockFuel (tokens.length + 1) [] tokens

/-! ## Mapping -/

/-- A directive inside an `upstream` block. -/
def mapMember (b : Builder) (child : Node) : Builder :=
  if child.name = "server" then
    match child.args.head? with
    | some addr => b.line (Line.target (withScheme addr)).text
    | none => b
  else b.note child.name .Manual "upstream directive needs manual translation"

def mapUpstream (node : Node) (b : Builder) : Builder :=
  let name := node.args.head?.getD []
  let b := b.openBlock (header .upstream [name])
  let b := node.block.foldl mapMember b
  b.close.note "upstream" .Exact "mapped to a Flow upstream pool"

/-- The handler of a `return`, and the note about it. -/
def mapReturn (args : List Str) (b : Builder) : Handler × Builder :=
  match args with
  | [] => (.respond "200", b.note "return" .Manual "unrecognized return form")
  | [code, url] =>
    if url.contains "://" ∨ url.head? = some '/' then
      (.redirect url code, b.note "return" .Exact "mapped to redirect()")
    else (.respond code, b.note "return" .Approximate "mapped to respond()")
  | code :: _ => (.respond code, b.note "return" .Approximate "mapped to respond()")

/-- A bare `http://name` stands for the upstream of that name. -/
def upstreamRef (target : Str) : Str :=
  match target.stripPrefix "http://" with
  | some host => if ':' ∉ host ∧ '.' ∉ host ∧ '/' ∉ host then "@" ++ host else target
  | none => target

/-- What the loop of `map_location` has found so far. -/
structure Picked where
  handler : Option Handler
  tryRoot : Option Str
  builder : Builder

def pick (st : Picked) (d : Node) : Picked :=
  if d.name = "proxy_pass" then
    match d.args.head? with
    | some target =>
      { st with
        handler := some (.proxy (upstreamRef target))
        builder := st.builder.note "proxy_pass" .Exact "mapped to proxy()" }
    | none => st
  else if d.name = "return" then
    let (handler, b) := mapReturn d.args st.builder
    { st with handler := some handler, builder := b }
  else if d.name = "root" ∨ d.name = "alias" then { st with tryRoot := d.args.head? }
  else st

/-- The part of `map_location` after its matcher. -/
def mapHandler (pattern : Pattern) (block : List Node) (b : Builder) : Builder :=
  let st := block.foldl pick ⟨none, none, b⟩
  match st.handler, st.tryRoot with
  | some h, _ => st.builder.line (Line.route pattern h).text
  | none, some root => (st.builder.note "root" .Exact "mapped to files()").line (Line.route pattern (.files root)).text
  | none, none =>
    st.builder.note "location" .Manual "no recognized handler (proxy_pass/root/return) in this location"

inductive Matcher
  | none
  | regex
  | pattern (p : Pattern)
  deriving DecidableEq, Repr

/-- `location = /path`, `location ~ re` or `location /path`. -/
def matcher : List Str → Matcher
  | [] => .none
  | m :: rest =>
    if m = "=" then .pattern ⟨true, rest.head?.getD []⟩
    else if m = "~" ∨ m = "~*" then .regex
    else if m = "/" then .pattern .all
    else .pattern (.below m)

def mapLocation (loc : Node) (b : Builder) : Builder :=
  match matcher loc.args with
  | .none => b
  | .regex => b.note "location ~" .Manual "regex location needs a manual Flow regex route"
  | .pattern p => mapHandler p loc.block b

/-- The names of the last `server_name`. -/
def serverNames (block : List Node) : List Str :=
  block.foldl (fun hosts child => if child.name = "server_name".toList then child.args else hosts) []

def isSslListen (child : Node) : Bool := child.name == "listen" && child.args.contains "ssl"

/-- The names a site is opened with. -/
def siteHosts (hosts : List Str) : List Str := if hosts = [] ∨ hosts = ["_".toList] then [":default".toList] else hosts

/-- Of the other directives of a server only its locations are looked at. -/
def mapChild (b : Builder) (child : Node) : Builder :=
  if child.name = "location" then mapLocation child b else b

def mapServer (node : Node) (b : Builder) : Builder :=
  let b := b.openBlock (header .site (siteHosts (serverNames node.block)))
  let b := if node.block.any isSslListen then
      (b.line Line.tls.text).note "listen ssl" .Approximate
        "TLS mapped to `tls auto` (ACME); manual certs need a tls\x7b\x7d block"
    else b
  let b := node.block.foldl mapChild b
  b.close

/-- The blocks that `map` looks into. -/
def isWrapper (name : Str) : Bool := name == "http" || name == "stream" || name == "events"

mutual

def mapNode : Node → Builder → Builder
  | ⟨name, args, block⟩, b =>
    if isWrapper name then map block b
    else if name = "upstream".toList then mapUpstream ⟨name, args, block⟩ b
    else if name = "server".toList then mapServer ⟨name, args, block⟩ b
    else b.note name .Dropped "top-level directive not translated"

def map : List Node → Builder → Builder
  | [], b => b
  | node :: nodes, b => map nodes (mapNode node b)

end

def imported (text : Str) : Import :=
  let b := Builder.empty.line "# Imported from nginx by `pulsate import nginx`. Review the notes."
  (map (parseBlock (tokenize text)).1 b).finish

/-! ## What the importer makes of a configuration -/

/-- The nodes that `map` looks at: those at the top, and those in the blocks that wrap others. -/
def Node.tops : Node → List Node
  | ⟨name, args, block⟩ => if isWrapper name then topsAll block else [⟨name, args, block⟩]
where
  topsAll : List Node → List Node
    | [] => []
    | node :: nodes => node.tops ++ topsAll nodes

def memberLines (c : Node) : List Line :=
  if c.name = "server" then c.args.head?.toList.map (fun addr => .target (withScheme addr)) else []

def upstreamPiece (node : Node) : Piece := ⟨.upstream, [node.args.head?.getD []], node.block.flatMap memberLines⟩

def returnHandler : List Str → Handler
  | [] => .respond "200"
  | [code, url] => if url.contains "://" ∨ url.head? = some '/' then .redirect url code else .respond code
  | code :: _ => .respond code

/-- The handler that a directive of a location asks for. -/
def ownHandler (d : Node) : Option Handler :=
  if d.name = "proxy_pass" then d.args.head?.map (fun target => .proxy (upstreamRef target))
  else if d.name = "return" then some (returnHandler d.args)
  else none

def isRoot (d : Node) : Bool := d.name == "root" || d.name == "alias"

/-- The last directive that asks for a handler decides. -/
def handlerOf (block : List Node) : Option Handler := (block.filterMap ownHandler).getLast?

/-- The directory of the last `root` or `alias`. -/
def rootOf (block : List Node) : Option Str := (block.filter isRoot).getLast?.bind (·.args.head?)

/-- A directory is served only if no directive asks for a handler. -/
def chosen (block : List Node) : Option Handler := (handlerOf block).or ((rootOf block).map .files)

def locationLines (loc : Node) : List Line :=
  match matcher loc.args with
  | .pattern p => (chosen loc.block).toList.map (.route p)
  | _ => []

def childLines (c : Node) : List Line := if c.name = "location" then locationLines c else []

def serverPiece (node : Node) : Piece where
  keyword := .site
  words := siteHosts (serverNames node.block)
  lines := (if node.block.any isSslListen then [.tls] else []) ++ node.block.flatMap childLines

/-- The block that a node at the top gives. -/
def Node.pieces (node : Node) : List Piece :=
  if node.name = "upstream".toList then [upstreamPiece node]
  else if node.name = "server".toList then [serverPiece node]
  else []

/-- The nodes the importer reads at the top of a text. -/
def tops (text : Str) : List Node := Node.tops.topsAll (parseBlock (tokenize text)).1

/-- The blocks the importer opens. -/
def pieces (text : Str) : List Piece := (tops text).flatMap Node.pieces

end Pulsate.Migrate.Nginx
