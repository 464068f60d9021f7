import Pulsate.Pipeline.Pipeline

/-!
# What a chain of `cors` steps should answer
-/

namespace Pulsate.Pipeline

open Http (HeaderMap HeaderName HeaderValue Response isVisibleChar)
open Routing (Mw)
open Waf (Buckets)

def corsStep : Mw → Option Cors
  | .cors origins methods credentials => some ⟨origins, methods, credentials⟩
  | _ => none

def corsSteps (pipeline : List Mw) : List Cors := pipeline.filterMap corsStep

namespace Cors

/-- The step is open to every origin. -/
def Open (cors : Cors) : Prop := ['*'] ∈ cors.origins

def Accepts (cors : Cors) (origin : Str) : Prop := cors.Open ∨ origin ∈ cors.origins

instance decidableOpen (cors : Cors) : Decidable cors.Open := inferInstanceAs (Decidable (['*'] ∈ cors.origins))

instance decidableAccepts (cors : Cors) (origin : Str) : Decidable (cors.Accepts origin) :=
  inferInstanceAs (Decidable (_ ∨ origin ∈ cors.origins))

end Cors

def starValue : HeaderValue := ⟨Str.bytes "*", by decide⟩

/-- Every origin is allowed, and with credentials. -/
def Mixed (resp : Response) : Prop :=
  starValue ∈ resp.headers.getAll .accessControlAllowOrigin ∧ trueValue ∈ resp.headers.getAll .accessControlAllowCredentials

/-- The handler's response is left to the steps. -/
def Unmarked (resp : Response) : Prop :=
  resp.headers.getAll .accessControlAllowOrigin = [] ∧ resp.headers.getAll .accessControlAllowCredentials = []

/-- No step sets or removes the header by name. -/
def Neutral (name : HeaderName) (pipeline : List Mw) : Prop :=
  ∀ set remove, .headers set remove ∈ pipeline →
    (∀ header ∈ set, HeaderName.parse header.1 ≠ some name) ∧ ∀ removed ∈ remove, HeaderName.parse removed ≠ some name

/-- Neither a handler's response nor an answer of a step comes out mixed, for any request. -/
structure NeverMixed (pipeline : List Mw) : Prop where
  egress : ∀ (headers : HeaderMap) (resp : Response), Unmarked resp → ¬ Mixed (egress pipeline (headers.getStr .origin) resp)
  ingress : ∀ clock limiters req resp, (ingress clock pipeline limiters req).short = some resp → ¬ Mixed resp

/-- Each origin that a step with credentials lists behind an open step is accepted by a step in front of that one. -/
def Shielded (steps : List Cors) : Prop :=
  ∀ pre star post, steps = pre ++ star :: post → star.Open → ∀ cors ∈ post, cors.credentials →
    ∀ origin ∈ cors.origins, (∀ c ∈ origin, isVisibleChar c) → ∃ first ∈ pre, first.Accepts origin

end Pulsate.Pipeline
