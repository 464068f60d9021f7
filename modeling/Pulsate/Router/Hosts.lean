import Pulsate.K8s.Translate
import Pulsate.Router.Router

/-!
# Hosts, label by label

What a host pattern means for the host a request names, apart from how the router reads it.
-/

namespace Pulsate.Routing

/-- What a client sends: a name, with or without a port. -/
def hostText (name : Str) : Option Str → Str
  | some port => name ++ ':' :: port
  | none => name

/-- A name has no colon, unless it is an address in brackets. -/
def IsHostName (name : Str) : Prop :=
  ':' ∉ name ∨ ∃ inner, name = '[' :: (inner ++ [']']) ∧ ':' ∈ inner ∧ ']' ∉ inner

/-- A wildcard stands for one or more labels, any other pattern for itself; case does not matter. -/
def LabelExact (pat name : Str) : Prop :=
  match pat.stripPrefix "*." with
  | some suffix => ∃ label, label ≠ [] ∧ name.eqIgnoreAsciiCase (label ++ '.' :: suffix)
  | none => pat.eqIgnoreAsciiCase name

/-- The router takes the pattern to match the host. -/
def PatternMatches (pat host : Str) : Prop := (patternScore pat (hostWithoutPort host)).isSome

instance (pat host : Str) : Decidable (PatternMatches pat host) := inferInstanceAs (Decidable (_ = true))

/-- The pattern matches the host as it means to, and as the Kubernetes translation has it. -/
structure MatchesExactly (pat name : Str) (port : Option Str) : Prop where
  label : PatternMatches pat (hostText name port) ↔ LabelExact pat name
  agrees : K8s.isValidHostname pat → K8s.isValidHostname name →
    (PatternMatches pat (hostText name port) ↔ K8s.hostMatches pat name)

def EndsWithin (suffix name : Str) : Prop := suffix <:+ name ∧ suffix ≠ name

/-- The name is written as the router reads it. A wildcard needs the dot of the label before it and the pattern's own
case, any other pattern its own case; of an address in brackets only the part before the first colon is read. -/
def ReadAsMeant (pat name : Str) : Prop :=
  match pat.stripPrefix "*." with
  | some suffix =>
    if ':' ∈ name then
      ¬ EndsWithin suffix (hostWithoutPort name) ∧
        ¬ ∃ label, label ≠ [] ∧ name.eqIgnoreAsciiCase (label ++ '.' :: suffix)
    else
      (EndsWithin suffix name → ∃ label, label ≠ [] ∧ name = label ++ '.' :: suffix) ∧
        ∀ label, label ≠ [] → name.eqIgnoreAsciiCase (label ++ '.' :: suffix) → suffix <:+ name
  | none =>
    if ':' ∈ name then pat ≠ hostWithoutPort name ∧ pat.eqIgnoreAsciiCase name = false
    else pat.eqIgnoreAsciiCase name → pat = name

end Pulsate.Routing
