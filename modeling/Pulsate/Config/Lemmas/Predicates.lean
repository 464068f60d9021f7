import Pulsate.Config.Predicates
import Pulsate.Router.Lemmas.Best

/-!
# What compiled routes ask of a request
-/

namespace Pulsate.Conf

open Option Str

theorem method_builtRoute {config : Config} {rt : Flow.Route} {r : Routing.Route} (h : builtRoute config rt = some r) :
    r.method = (rt.matcher.predicates.find? (·.key = "method".toList)).map (fun p => p.value.toAsciiUppercase) := by
  obtain ⟨handler, -, rfl⟩ := map_eq_some_iff.mp h
  rfl

/-! ## Predicates -/

section Predicates

variable {config : Config} {rt : Flow.Route} {r : Routing.Route} {p : Flow.Predicate} {req : Request}

theorem host_ne_method : "host".toList ≠ "method".toList := by decide

theorem holds_of_redundant (hr : builtRoute config rt = some r) (hmatch : r.Matches req.path req.method)
    (h : Redundant rt p) : Holds p req := by
  rcases h with ⟨hkey, hany⟩ | ⟨hkey, hvalue⟩
  · have hne : p.key ≠ "method".toList := by
      rw [hkey]
      exact host_ne_method
    rw [Holds, if_neg hne, if_pos hkey]
    exact .inl hany
  · rw [Holds, if_pos hkey]
    rcases hvalue with hany | ⟨q, hq, hvalue⟩
    · exact .inl hany
    · have hmethod := method_builtRoute hr
      rw [hq, map_some] at hmethod
      have hreq := Routing.Route.eqIgnoreAsciiCase_of_matches hmatch hmethod
      rw [eqIgnoreAsciiCase_toAsciiUppercase, eqIgnoreAsciiCase_iff] at hreq
      rw [eqIgnoreAsciiCase_iff] at hvalue ⊢
      exact .inr (hvalue.trans hreq)

/-- A host that is not the given one. -/
def otherHost (host : Str) : Str := if host = [] then ['x'] else []

theorem otherHost_ne (host : Str) : host.eqIgnoreAsciiCase (Routing.hostWithoutPort (otherHost host)) = false := by
  rw [otherHost]
  split
  · rename_i hempty
    rw [hempty]
    decide
  · rename_i hne
    have hread : Routing.hostWithoutPort [] = [] := by decide
    rw [hread, Bool.eq_false_iff]
    intro h
    have hlen := length_eq_of_eqIgnoreAsciiCase h
    exact hne (List.eq_nil_of_length_eq_zero hlen)

theorem redundant_of_holds (hr : builtRoute config rt = some r) (hp : p ∈ rt.matcher.predicates)
    (h : ∀ req : Request, r.Matches req.path req.method → Holds p req) : Redundant rt p := by
  have hmethod := method_builtRoute hr
  -- a request with the method of the route, some other host, no header and no query
  let method : Str := ((rt.matcher.predicates.find? (·.key = "method".toList)).map (·.value)).getD []
  have hadmits : ∀ m ∈ r.method, m.eqIgnoreAsciiCase method := by
    intro m hm
    rw [hmethod] at hm
    obtain ⟨q, hq, rfl⟩ := map_eq_some_iff.mp hm
    have hmeq : method = q.value := by
      show ((rt.matcher.predicates.find? _).map _).getD [] = q.value
      rw [hq]
      rfl
    rw [eqIgnoreAsciiCase_toAsciiUppercase, hmeq]
    exact eqIgnoreAsciiCase_iff.mpr rfl
  obtain ⟨path, hpath⟩ := r.exists_matches hadmits
  have hholds := h ⟨otherHost p.value, path, method, [], []⟩ hpath
  rw [Holds] at hholds
  split at hholds
  · rename_i hkey
    refine .inr ⟨hkey, ?_⟩
    rcases hholds with hany | hvalue
    · exact .inl hany
    · have hsome : (rt.matcher.predicates.find? (·.key = "method".toList)).isSome := by
        rw [List.find?_isSome]
        exact ⟨p, hp, decide_eq_true hkey⟩
      obtain ⟨q, hq⟩ := isSome_iff_exists.mp hsome
      have hmeq : method = q.value := by
        show ((rt.matcher.predicates.find? _).map _).getD [] = q.value
        rw [hq]
        rfl
      rw [hmeq] at hvalue
      exact .inr ⟨q, hq, hvalue⟩
  · split at hholds
    · rename_i hkey
      rcases hholds with hany | hvalue
      · exact .inl ⟨hkey, hany⟩
      · rw [otherHost_ne] at hvalue
        cases hvalue
    · split at hholds
      · obtain ⟨f, hf, -⟩ := hholds
        cases hf
      · obtain ⟨f, hf, -⟩ := hholds
        cases hf
      · exact absurd hholds id

theorem restricted_iff (hr : builtRoute config rt = some r) :
    Restricted config rt ↔ ∀ p ∈ rt.matcher.predicates, Redundant rt p := by
  constructor
  · exact fun h p hp => redundant_of_holds hr hp (fun req hmatch => h.enforced r hr req hmatch p hp)
  · intro h
    have henforced : ∀ req : Request, r.Matches req.path req.method → ∀ p ∈ rt.matcher.predicates, Holds p req :=
      fun req hmatch p hp => holds_of_redundant hr hmatch (h p hp)
    refine ⟨fun r' hr' req hroute => ?_, fun r' hr' req hmatch => ?_⟩
    · obtain rfl : r = r' := Option.some.inj (hr.symm.trans hr')
      exact henforced req (Routing.Router.matches_of_route hroute)
    · obtain rfl : r = r' := Option.some.inj (hr.symm.trans hr')
      exact henforced req hmatch

end Predicates

end Pulsate.Conf
