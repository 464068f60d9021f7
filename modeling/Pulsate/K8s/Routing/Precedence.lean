import Pulsate.K8s.Plan

/-!
# Which match wins

The precedence of the Gateway API among the matches of the rules on one host, over the objects alone.
-/

namespace Pulsate.K8s

/-- The prefix is the path, or ends before a slash of it, or is empty. -/
def SegmentPrefix (v path : Str) : Prop := v = [] ∨ path = v ∨ v ++ ['/'] <+: path

instance (v path : Str) : Decidable (SegmentPrefix v path) := inferInstanceAs (Decidable (_ ∨ _))

namespace HTTPRouteMatch

/-- Every other type counts as a prefix, and so does a match without a path. -/
def isExact (m : HTTPRouteMatch) : Bool := m.path.any (·.matchType.eqIgnoreAsciiCase "Exact")

def value (m : HTTPRouteMatch) : Str := (m.path.map (·.value)).getD "/"

/-- The value without its trailing slashes. -/
def trimmed (m : HTTPRouteMatch) : Str := m.value.trimEndMatches '/'

/-- The match applies to a request. -/
def Applies (m : HTTPRouteMatch) (path method : Str) : Prop :=
  (∀ s ∈ m.method, s.eqIgnoreAsciiCase method) ∧
    if m.isExact then m.value = path else SegmentPrefix m.trimmed path

instance (m : HTTPRouteMatch) (path method : Str) : Decidable (m.Applies path method) :=
  inferInstanceAs (Decidable (_ ∧ _))

def SamePath (m m' : HTTPRouteMatch) : Prop :=
  m.isExact ∧ m'.isExact ∧ m.value = m'.value ∨
    m.isExact = false ∧ m'.isExact = false ∧ m.trimmed = m'.trimmed

/-- Exact beats prefix, a longer prefix a shorter one, and at equal paths a match with a method one without. -/
def Beats (m m' : HTTPRouteMatch) : Prop :=
  m.isExact ∧ m'.isExact = false ∨
    m.isExact = false ∧ m'.isExact = false ∧ m'.trimmed.len < m.trimmed.len ∨
    m.SamePath m' ∧ m.method.isSome ∧ m'.method = none

end HTTPRouteMatch

/-- A match of a rule on the host applies, and no other such match beats it. -/
structure Wins (ps : List Placement) (host path method : Str) (p : Placement) (m : HTTPRouteMatch) : Prop where
  placed : p ∈ ps
  onHost : p.host = host
  mem : m ∈ p.toEmitted.rule.effective
  applies : m.Applies path method
  best : ∀ q ∈ ps, q.host = host → ∀ m' ∈ q.toEmitted.rule.effective, m'.Applies path method → ¬ m'.Beats m

end Pulsate.K8s
