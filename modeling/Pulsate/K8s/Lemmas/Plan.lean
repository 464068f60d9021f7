import Pulsate.K8s.Lemmas.Placement
import Pulsate.K8s.Plan
import Pulsate.Lib.Lists

/-!
# The translation carries out its plan
-/

namespace Pulsate.K8s

open List Lib.OrdMap

/-! ## Lines -/

theorem Entry.line_text (n : Entry) :
    n.line.text = "route ".toList ++ (match n.kind with | .Exact => "= ".toList ++ n.pattern | .Prefix => n.pattern) ++
      (match n.method with | some m => " [method=".toList ++ m ++ "]".toList | none => []) ++
      " ~> proxy(@".toList ++ n.upstream ++ ")".toList := by
  obtain ⟨kind, pattern, method, upstream⟩ := n
  have hpred : " [method=".toList = " [".toList ++ "method".toList ++ "=".toList := rfl
  have hstep : " ~> proxy(@".toList = " ~> ".toList ++ "proxy".toList ++ "(".toList ++ "@".toList := rfl
  show Flow.RouteLine.text _ = _
  unfold Flow.RouteLine.text Flow.RouteLine.tailText
  rw [hpred, hstep]
  cases kind with
  | Exact =>
    cases method with
    | none => simp only [decide_true, if_true, Option.map_none, append_assoc]
    | some m => simp only [decide_true, if_true, Option.map_some, append_assoc]
  | Prefix =>
    have hkind : (decide (MatchKind.Prefix = .Exact)) = False := by simp
    cases method with
    | none => simp only [hkind, if_false, Option.map_none, append_assoc, nil_append]
    | some m => simp only [hkind, if_false, Option.map_some, append_assoc, nil_append]

theorem routeLine_eq (kind : MatchKind) (pattern : Str) (method : Option Str) (upstream : Str) :
    routeLine kind pattern method upstream =
      ((⟨kind, pattern, method.map Str.toAsciiUppercase, upstream⟩ : Entry).key,
        (⟨kind, pattern, method.map Str.toAsciiUppercase, upstream⟩ : Entry).line.text) := by
  rw [Entry.line_text]
  unfold routeLine Entry.key
  rfl

theorem lines_eq (e : Emitted) : e.lines = e.entries.map (fun n => (n.key, n.line.text)) := by
  simp only [Emitted.lines, Emitted.entries, ruleRouteLines, HTTPRouteRule.effective, map_map]
  split
  · rw [map_singleton, routeLine_eq]
    rfl
  · exact map_congr_left (fun m _ => routeLine_eq _ _ _ _)

theorem Target.line_text (t : Target) :
    t.line.text = if t.weight = 1 then "target " ++ t.url
      else "target " ++ t.url ++ " weight=" ++ Flow.natText t.weight := by
  have htarget : "target " = "target" ++ [' '] := rfl
  have hweight : " weight=" = ' ' :: ("weight" ++ "=") := rfl
  show "target" ++ List.flatMap (fun a => ' ' :: Flow.WordArg.text a) (.positional t.url ::
    if t.weight = 1 then [] else [.named "weight" (Flow.natText t.weight)]) = _
  rw [htarget, hweight]
  by_cases hw : t.weight = 1
  · simp only [hw, if_true, flatMap_cons, flatMap_nil, Flow.WordArg.text, append_nil, append_assoc,
      cons_append, nil_append]
  · simp only [hw, if_false, flatMap_cons, flatMap_nil, Flow.WordArg.text, append_nil, append_assoc,
      cons_append, nil_append]

theorem targetLine_eq (ns : Str) (b : HTTPBackendRef) :
    targetLine ns b = "  ".toList ++ (target ns b).line.text ++ "\n".toList := by
  have hw : (b.weight.getD 1).toNat = 1 ↔ b.weight.getD 1 = 1 := by
    rw [← UInt32.toNat_inj]; rfl
  have hindent : "  target ".toList = "  ".toList ++ "target ".toList := rfl
  rw [Target.line_text]
  unfold targetLine target
  simp only [hw]
  rw [hindent]
  split
  · simp only [append_assoc]
  · simp only [append_assoc]

theorem blockText_eq (keyword arg : Str) (lines : List Flow.Line) :
    keyword ++ " ".toList ++ arg ++ " \x7b\n".toList ++
        lines.flatMap (fun l => "  ".toList ++ l.text ++ "\n".toList) ++ "\x7d".toList =
      (⟨keyword, [.positional arg], lines⟩ : Flow.Block).text := by
  have hopen : " \x7b\n".toList = " \x7b".toList ++ "\n".toList := rfl
  have hclose : "\n\x7d".toList = "\n".toList ++ "\x7d".toList := rfl
  have hspace : " ".toList = [' '] := rfl
  have hindent : ∀ l : Str, "\n  ".toList ++ l = "\n".toList ++ ("  ".toList ++ l) := fun l => rfl
  have h := Lib.append_flatMap_append "\n".toList (fun l : Flow.Line => "  ".toList ++ l.text) lines
  unfold Flow.Block.text
  simp only [hindent, flatMap_cons, flatMap_nil, Flow.WordArg.text, append_nil]
  rw [hopen, hclose, ← append_assoc _ _ "\n".toList, append_assoc _ "\n".toList, h, hspace]
  simp only [append_assoc, cons_append, nil_append]

theorem block_eq (e : Emitted) : e.block = (upstreamDoc e.upName e.targets).text := by
  have ht : targetLine e.ns = fun b => "  " ++ (target e.ns b).line.text ++ "\n" :=
    funext (targetLine_eq e.ns)
  have hup : "upstream " = "upstream" ++ " " := rfl
  unfold Emitted.block upstreamBlock upstreamDoc Emitted.targets
  rw [← blockText_eq, map_map, flatMap_map, ht, hup]
  rfl

/-! ## Maps -/

/-- The translation's record of a planned site. -/
def SitePlan.acc (s : SitePlan) : SiteAcc := ⟨s.https, s.routes.mapEntries (fun _ n => n.line.text)⟩

def Plan.acc (p : Plan) : Acc := ⟨p.sites.mapEntries (fun _ => SitePlan.acc), p.upstreams.mapEntries (fun name ts => (upstreamDoc name ts).text)⟩

theorem sitePlan_acc (ps : List Placement) (host : Str) :
    (sitePlan ps host).acc = ⟨ps.any (fun p => p.host = host ∧ p.https),
      insertAll ∅ ((ps.filter (·.host = host)).flatMap (·.toEmitted.lines))⟩ := by
  rw [SitePlan.acc, sitePlan, mapEntries_insertAll, map_flatMap]
  simp only [lines_eq, map_map, Function.comp_def, mapEntries_empty]

theorem foldl_place_sites (ps : List Placement) (host : Str) :
    (ps.foldl Placement.place ⟨∅, ∅⟩).sites.get? host =
      if ∃ p ∈ ps, p.host = host then some (sitePlan ps host).acc else none := by
  simp only [sitePlan_acc]
  induction ps using List.reverseRecOn with
  | nil => simp
  | append_singleton ps p ih =>
    simp only [foldl_append, foldl_cons, foldl_nil, Placement.place, placeOn,
      get?_alter]
    by_cases hp : p.host = host
    · subst hp
      have hex : ∃ q ∈ ps ++ [p], q.host = p.host := ⟨p, by simp, rfl⟩
      rw [if_pos rfl, if_pos hex, ih]
      simp only [filter_append, flatMap_append, insertAll_append, any_append]
      split
      · simp
      · rename_i hno
        have hne : ∀ q ∈ ps, q.host ≠ p.host := fun q hq h => hno ⟨q, hq, h⟩
        have hfil : ps.filter (·.host = p.host) = [] := by
          rw [filter_eq_nil_iff]
          intro q hq
          simpa using hne q hq
        simp only [hfil, Option.getD_none, flatMap_nil, insertAll_nil]
        simp
        intro q hq h
        exact absurd h (hne q hq)
    · have hiff : (∃ q ∈ ps ++ [p], q.host = host) ↔ ∃ q ∈ ps, q.host = host := by
        simp [hp]
      rw [if_neg (Ne.symm hp), ih]
      simp only [hiff]
      simp [hp]

theorem foldl_place_upstreams (ps : List Placement) :
    (ps.foldl Placement.place ⟨∅, ∅⟩).upstreams =
      insertAll ∅ (ps.map (fun p => (p.toEmitted.upName, p.toEmitted.block))) := by
  induction ps using List.reverseRecOn with
  | nil => rfl
  | append_singleton ps p ih =>
    simp only [foldl_append, foldl_cons, foldl_nil, Placement.place, placeOn, ih,
      map_append, map_cons, map_nil, insertAll_append]
    rfl

theorem plan_sites_get? (ps : List Placement) (host : Str) :
    (plan ps).sites.get? host = if ∃ p ∈ ps, p.host = host then some (sitePlan ps host) else none := by
  have hl : ∀ e ∈ ps.map (fun p => (p.host, sitePlan ps p.host)),
      ∀ e' ∈ ps.map (fun p => (p.host, sitePlan ps p.host)), e.1 = e'.1 → e.2 = e'.2 := by
    intro e he e' he' h
    obtain ⟨p, -, rfl⟩ := mem_map.mp he
    obtain ⟨q, -, rfl⟩ := mem_map.mp he'
    exact congrArg (sitePlan ps) h
  apply Option.ext
  intro s
  rw [plan, get?_insertAll_empty_iff hl, mem_map]
  constructor
  · rintro ⟨p, hp, h⟩
    cases h
    rw [if_pos ⟨p, hp, rfl⟩]
  · intro h
    split at h
    · rename_i hex
      obtain ⟨p, hp, rfl⟩ := hex
      cases h
      exact ⟨p, hp, rfl⟩
    · cases h

theorem foldl_place_eq (ps : List Placement) : ps.foldl Placement.place ⟨∅, ∅⟩ = (plan ps).acc := by
  apply Acc.ext
  · apply ext_get?
    intro host
    rw [foldl_place_sites, Plan.acc, get?_mapEntries, plan_sites_get?]
    split <;> rfl
  · rw [foldl_place_upstreams]
    simp only [Plan.acc, plan, mapEntries_insertAll, map_map, Function.comp_def, block_eq,
      mapEntries_empty]

/-! ## Text -/

theorem renderSite_eq {host : Str} {s : SitePlan} (h : s.routes.entries ≠ []) :
    renderSite host s.acc = "\n".toList ++ (siteDoc host s).text ++ "\n".toList := by
  have hne : (s.acc).routes.entries ≠ [] := by
    rw [SitePlan.acc, mapEntries]
    simpa using h
  have htls : (if s.acc.https then "  tls auto\n".toList else "  tls off\n".toList) =
      "  ".toList ++ (tlsLine s.https).text ++ "\n".toList := by
    rw [SitePlan.acc]
    cases s.https <;> rfl
  have hlines : s.acc.routes.values = s.routes.values.map (·.line.text) := by
    rw [SitePlan.acc, values_mapEntries, values, map_map]
    rfl
  have hsite : "\nsite ".toList = "\n".toList ++ "site".toList ++ " ".toList := rfl
  have hend : "\x7d\n".toList = "\x7d".toList ++ "\n".toList := rfl
  unfold renderSite siteDoc
  rw [if_neg hne, htls, hlines, ← blockText_eq, hsite, hend, flatMap_cons, flatMap_map, flatMap_map]
  simp only [append_assoc]

theorem sitePlan_routes_ne_nil {ps : List Placement} {p : Placement} (hp : p ∈ ps) :
    (sitePlan ps p.host).routes.entries ≠ [] := by
  have heff : p.toEmitted.rule.effective ≠ [] := by
    rw [HTTPRouteRule.effective]
    split
    · simp
    · assumption
  obtain ⟨m, hm⟩ := exists_mem_of_ne_nil _ heff
  obtain ⟨n, hn⟩ := get?_insertAll_of_mem (m := ∅) (l := (ps.filter (·.host = p.host)).flatMap
    (fun p => p.toEmitted.entries.map (fun n => (n.key, n)))) (k := (Entry.ofMatch p.toEmitted.upName m).key)
    (v := Entry.ofMatch p.toEmitted.upName m) (by
      simp only [mem_flatMap, mem_filter, decide_eq_true_eq, mem_map]
      exact ⟨p, ⟨hp, rfl⟩, _, mem_map.mpr ⟨m, hm, rfl⟩, rfl⟩)
  exact ne_nil_of_mem (mem_entries_iff.mpr hn)

theorem render_eq (ps : List Placement) : render (plan ps).acc = (plan ps).document.text := by
  have hsites : ∀ e ∈ (plan ps).sites.entries,
      renderSite e.1 (SitePlan.acc e.2) = "\n" ++ (siteDoc e.1 e.2).text ++ "\n" := by
    intro e he
    apply renderSite_eq
    have hget := mem_entries_iff.mp he
    rw [plan_sites_get?] at hget
    split at hget
    · rename_i hex
      obtain ⟨p, hp, hh⟩ := hex
      rw [← Option.some.inj hget, ← hh]
      exact sitePlan_routes_ne_nil hp
    · cases hget
  have hheader : header = "#" ++ (plan ps).document.comment ++ "\n" := by
    dsimp only [Plan.document]
    decide
  unfold render Flow.Document.text
  rw [hheader]
  unfold Plan.document
  simp only [Plan.acc, values_mapEntries, flatMap_append, flatMap_map, append_assoc]
  simp only [append_assoc] at hsites
  congr 4
  simp only [mapEntries, flatMap_map]
  exact flatMap_congr hsites

theorem toFlow_eq (classes : List GatewayClass) (gateways : List Gateway) (routes : List HTTPRoute)
    (controllerName : Str) : toFlow classes gateways routes controllerName =
      (plan (placements (managedGateways classes gateways controllerName) routes)).document.text := by
  rw [toFlow, translate_eq, foldl_place_eq, render_eq]

end Pulsate.K8s
