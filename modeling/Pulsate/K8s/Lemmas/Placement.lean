import Pulsate.K8s.Placement

/-!
# The loops of a translation

The translation puts its placements one after another, and these are the emitted rules on the hosts their
routes' parents expose.
-/

namespace Pulsate.K8s

open List

variable {managed : Lib.OrdMap (Str ×ₗ Str) Gateway}

/-! ## The nested loops as one -/

theorem ruleRouteLines_ne_nil (rule : HTTPRouteRule) (upstream : Str) :
    ruleRouteLines rule upstream ≠ [] := by
  unfold ruleRouteLines
  split
  · simp
  · rename_i h; simpa using h

theorem addRule_eq (parents : List Gateway) (route : HTTPRoute) (acc : Acc) (rule : HTTPRouteRule × Nat) :
    addRule parents route acc rule =
      if rule.1.backendRefs = [] then acc
      else
        ((parents.flatMap (hostsFor · route.hostnames)).map
          (fun h => (⟨⟨route, rule.1, rule.2⟩, h.1, h.2⟩ : Placement))).foldl Placement.place acc := by
  unfold addRule
  split
  · rfl
  · simp only [ruleRouteLines_ne_nil, if_false]
    rw [foldl_map, foldl_flatMap]
    rfl

theorem addRoute_eq (acc : Acc) (route : HTTPRoute) :
    addRoute managed acc route =
      ((emittedRules managed route).flatMap
        (fun e => (hostsOf managed e.route).map (fun h => (⟨e, h.1, h.2⟩ : Placement)))).foldl
          Placement.place acc := by
  unfold addRoute emittedRules
  by_cases hv : routeIsValid route
  · by_cases hh : hostsOf managed route = []
    · -- nothing is placed, whether for want of parents or of hosts
      simp only [hv, hh, Bool.not_true, Bool.false_eq_true, if_false, ne_eq, not_true_eq_false, and_false,
        flatMap_nil, foldl_nil]
      split
      · rfl
      · generalize route.rules.zipIdx = rules
        induction rules with
        | nil => rfl
        | cons r rs ih =>
          have : addRule (parentsOf managed route) route acc r = acc := by
            rw [addRule_eq]
            have hp : (parentsOf managed route).flatMap (hostsFor · route.hostnames) = [] := hh
            rw [hp]
            simp
          rw [foldl_cons, this, ih]
    · have hp : parentsOf managed route ≠ [] := by
        intro h
        exact hh (by rw [hostsOf, h]; rfl)
      simp only [hv, hh, hp, Bool.not_true, Bool.false_eq_true, if_false, ne_eq, not_false_eq_true,
        and_self, if_true]
      generalize route.rules.zipIdx = rules
      induction rules generalizing acc with
      | nil => rfl
      | cons r rs ih =>
        rw [foldl_cons, ih, addRule_eq, filter_cons]
        by_cases hb : r.1.backendRefs = []
        · simp [hb]
        · simp only [hb, if_false, decide_not, decide_false, Bool.not_false, if_true, map_cons,
            flatMap_cons, foldl_append]
          rfl
  · simp [hv]

theorem translate_eq (classes : List GatewayClass) (gateways : List Gateway) (routes : List HTTPRoute)
    (controllerName : Str) :
    translate classes gateways routes controllerName =
      (placements (managedGateways classes gateways controllerName) routes).foldl Placement.place ⟨∅, ∅⟩ := by
  have hfun : addRoute (managedGateways classes gateways controllerName) = fun acc route =>
      ((emittedRules (managedGateways classes gateways controllerName) route).flatMap
        (fun e => (hostsOf (managedGateways classes gateways controllerName) e.route).map
          (fun h => (⟨e, h.1, h.2⟩ : Placement)))).foldl Placement.place acc := by
    funext acc route
    exact addRoute_eq acc route
  rw [translate, hfun, placements, emitted, flatMap_assoc, foldl_flatMap]

/-! ## Members -/

theorem mem_hostsOf {route : HTTPRoute} {h : Str × Bool} :
    h ∈ hostsOf managed route ↔
      ∃ ref ∈ route.parentRefs, ∃ g, managed.get? (toLex (ref.ns.getD route.metadata.nsOrEmpty, ref.name)) =
        some g ∧ ∃ l ∈ g.listeners, h ∈ listenerHosts l route.hostnames := by
  simp only [hostsOf, parentsOf, hostsFor, mem_flatMap, mem_filterMap]
  constructor
  · rintro ⟨g, ⟨ref, href, hg⟩, l, hl, hh⟩
    exact ⟨ref, href, g, hg, l, hl, hh⟩
  · rintro ⟨ref, href, g, hg, l, hl, hh⟩
    exact ⟨g, ⟨ref, href, hg⟩, l, hl, hh⟩

theorem mem_emitted {routes : List HTTPRoute} {e : Emitted} :
    e ∈ emitted managed routes ↔
      e.route ∈ routes ∧ routeIsValid e.route ∧ hostsOf managed e.route ≠ [] ∧
        e.route.rules[e.idx]? = some e.rule ∧ e.rule.backendRefs ≠ [] := by
  simp only [emitted, emittedRules, mem_flatMap]
  constructor
  · rintro ⟨route, hr, he⟩
    split at he
    · rename_i hc
      simp only [mem_map, mem_filter, decide_eq_true_eq] at he
      obtain ⟨⟨rule, i⟩, ⟨hmem, hb⟩, rfl⟩ := he
      exact ⟨hr, hc.1, hc.2, mem_zipIdx_iff_getElem?.mp hmem, hb⟩
    · cases he
  · rintro ⟨hr, hv, hh, hi, hb⟩
    refine ⟨e.route, hr, ?_⟩
    rw [if_pos ⟨hv, hh⟩]
    simp only [mem_map, mem_filter, decide_eq_true_eq]
    exact ⟨(e.rule, e.idx), ⟨mem_zipIdx_iff_getElem?.mpr hi, hb⟩, rfl⟩

theorem mem_placements {routes : List HTTPRoute} {p : Placement} :
    p ∈ placements managed routes ↔
      p.toEmitted ∈ emitted managed routes ∧ (p.host, p.https) ∈ hostsOf managed p.toEmitted.route := by
  simp only [placements, mem_flatMap, mem_map]
  constructor
  · rintro ⟨e, he, h, hh, rfl⟩
    exact ⟨he, hh⟩
  · rintro ⟨he, hh⟩
    exact ⟨p.toEmitted, he, _, hh, rfl⟩

theorem exists_placement {routes : List HTTPRoute} {e : Emitted} (h : e ∈ emitted managed routes) :
    ∃ p ∈ placements managed routes, p.toEmitted = e := by
  obtain ⟨hd, hmem⟩ := exists_mem_of_ne_nil _ (mem_emitted.mp h).2.2.1
  exact ⟨⟨e, hd.1, hd.2⟩, mem_placements.mpr ⟨h, hmem⟩, rfl⟩

end Pulsate.K8s
