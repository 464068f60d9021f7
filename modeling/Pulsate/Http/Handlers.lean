import Pulsate.Cli.Up
import Pulsate.Pipeline.Pipeline

/-!
# Handlers (`pulsate-http::handlers`)

The file system and the upstreams are outside; what they come to is a parameter.
-/

namespace Pulsate.Http

open Conf (Handler)

/-- What is forwarded to an upstream. -/
structure Forwarded where
  method : Str
  pathAndQuery : Str
  headers : HeaderMap
  body : List UInt8
  peer : IpAddr
  host : Str

/-- The surroundings at the time of a request: what a directory serves for a path, and what a pool answers. -/
structure World where
  files : (root : Str) → (tryFiles : List Str) → (path : Str) → Response
  forward : Proxy.Upstream → Forwarded → Response

def statusOr (code fallback : Nat) : Nat := if 100 ≤ code ∧ code < 1000 then code else fallback

def respond (status : Nat) (body : Str) : Response :=
  let resp := Response.new (statusOr status 200)
  (if body = [] then resp else resp.insert .contentType Pipeline.textPlain).withBody body.bytes

def redirect (status : Nat) (dest : Str) : Response := (Response.new (statusOr status 308)).insertStr .location dest

def notImplemented (name : Str) : Response := respond 501 ("handler `" ++ name ++ "` is not implemented in this build")

def execute (world : World) (handler : Handler) (path : Str) : Response :=
  match handler with
  | .respond status body => respond status body
  | .redirect dest status => redirect status dest
  | .files root tryFiles => world.files root tryFiles path
  | .proxy _ _ => notImplemented "proxy"
  | .other name => notImplemented name

end Pulsate.Http
