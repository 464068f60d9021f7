import Pulsate.K8s.Lemmas.Words

/-!
# The text of a translation parses to the intended tree
-/

namespace Pulsate.K8s

open List Lib.OrdMap
open Pulsate.Flow (IsWord typeAtom Stmt)

variable {managed : Lib.OrdMap (Str ×ₗ Str) Gateway} {routes : List HTTPRoute}

variable {host : Str} {n : Entry}

/-! ## What a plan contains -/

section Members

variable {ps : List Placement}

theorem mem_plan_upstreams {u : Str × List Target} (h : u ∈ (plan ps).upstreams.entries) :
    ∃ p ∈ ps, u = (p.toEmitted.upName, p.toEmitted.targets) := by
  obtain ⟨p, hp, rfl⟩ := mem_map.mp (mem_of_mem_insertAll_empty h)
  exact ⟨p, hp, rfl⟩

theorem mem_plan_sites {s : SitePlan} :
    (host, s) ∈ (plan ps).sites.entries ↔ (∃ p ∈ ps, p.host = host) ∧ s = sitePlan ps host := by
  rw [mem_entries_iff, plan_sites_get?]
  split
  · rename_i hex
    rw [Option.some.injEq, eq_comm, and_iff_right hex]
  · rename_i hno
    exact ⟨fun h => absurd h.symm (Option.some_ne_none s), fun h => absurd h.1 hno⟩

theorem mem_plan_keys {p : Placement} (hp : p ∈ ps) : p.host ∈ (plan ps).sites.keys :=
  mem_keys_insertAll_empty.mpr ⟨_, mem_map.mpr ⟨p, hp, rfl⟩⟩

theorem mem_sitePlan_routes {k : RouteKey} (h : (k, n) ∈ (sitePlan ps host).routes.entries) :
    k = n.key ∧ ∃ p ∈ ps, p.host = host ∧ n ∈ p.toEmitted.entries := by
  have hm := mem_of_mem_insertAll_empty h
  simp only [mem_flatMap, mem_filter, decide_eq_true_eq, mem_map] at hm
  obtain ⟨p, ⟨hp, hh⟩, n', hn, he⟩ := hm
  cases he
  exact ⟨rfl, p, hp, hh, hn⟩

theorem mem_sitePlan_values (hmethods : ∀ p ∈ ps, ∀ n ∈ p.toEmitted.entries, n.method ≠ some []) :
    n ∈ (sitePlan ps host).routes.values ↔ ∃ p ∈ ps, p.host = host ∧ n ∈ p.toEmitted.entries := by
  constructor
  · intro h
    obtain ⟨e, he, rfl⟩ := mem_map.mp h
    exact (mem_sitePlan_routes he).2
  · rintro ⟨p, hp, hh, hn⟩
    refine mem_map.mpr ⟨(n.key, n), mem_entries_iff.mpr ?_, rfl⟩
    rw [sitePlan, get?_insertAll_empty_iff]
    · simp only [mem_flatMap, mem_filter, decide_eq_true_eq, mem_map]
      exact ⟨p, ⟨hp, hh⟩, n, hn, rfl⟩
    · intro e he e' he' hk
      simp only [mem_flatMap, mem_filter, mem_map] at he he'
      obtain ⟨q, ⟨hq, _⟩, m, hm, rfl⟩ := he
      obtain ⟨q', ⟨hq', _⟩, m', hm', rfl⟩ := he'
      exact Entry.eq_of_key_eq (hmethods q hq m hm) (hmethods q' hq' m' hm') hk

theorem keys_sitePlan (ps : List Placement) (host : Str) :
    (sitePlan ps host).routes.keys = (sitePlan ps host).routes.values.map Entry.key := by
  rw [Lib.OrdMap.keys, values, map_map]
  exact map_congr_left (fun e he => (mem_sitePlan_routes he).1)

theorem nodup_sitePlan_values (ps : List Placement) (host : Str) : (sitePlan ps host).routes.values.Nodup := by
  have hnd := (sitePlan ps host).routes.nodup_keys
  rw [keys_sitePlan] at hnd
  exact hnd.of_map

theorem sorted_sitePlan_values (ps : List Placement) (host : Str) :
    (sitePlan ps host).routes.values.Pairwise (fun n n' => n.key < n'.key) := by
  have hs := (sitePlan ps host).routes.keys_sorted
  rw [keys_sitePlan] at hs
  exact pairwise_map.mp hs

end Members

/-! ## Well-formed documents -/

/-- No pattern of an emitted match has a character that Flow reads as punctuation. -/
def CleanPatterns (managed : Lib.OrdMap (Str ×ₗ Str) Gateway) (routes : List HTTPRoute) : Prop :=
  ∀ e ∈ emitted managed routes, ∀ n ∈ e.entries, ∀ c ∈ n.pattern, isLoose c = false

theorem Target.line_wf {e : Emitted} (he : e ∈ emitted managed routes) (hns : Plain e.ns) {t : Target} (ht : t ∈ e.targets) :
    t.line.WF := by
  obtain ⟨b, hb, rfl⟩ := mem_map.mp ht
  have hurl : IsWord (target e.ns b).url := by
    refine (plain_url hns (backendIsValid_of_emitted he b hb)).isWord ?_
    unfold target
    simp
  have hkw : Flow.IsKeyword "target" := by decide
  refine ⟨hkw, ?_⟩
  intro a ha
  rcases mem_cons.mp ha with rfl | ha
  · exact hurl
  · split at ha
    · cases ha
    · rw [mem_singleton.mp ha]
      exact ⟨by decide, (plain_natText _).isWord (Flow.natText_ne_nil _)⟩

theorem Entry.line_wf {e : Emitted} (he : e ∈ emitted managed routes) (hn : n ∈ e.entries)
    (hclean : ∀ c ∈ n.pattern, isLoose c = false) : n.line.WF := by
  have hmethod := isMethod_of_entry he hn
  have hproxy : IsWord "proxy" := by decide
  have hkey : IsWord "method" := by decide
  obtain ⟨m, hm, rfl⟩ := mem_map.mp hn
  refine ⟨isWord_pattern (matchIsValid_of_emitted he m hm) hclean, ?_, hproxy, ?_⟩
  · intro p hp
    obtain ⟨s, hs, rfl⟩ := Option.map_eq_some_iff.mp hp
    exact ⟨hkey, (hmethod s hs).isWord⟩
  · exact ((show Plain "@" by decide).append (plain_upName e)).isWord (by simp)

theorem tlsLine_wf (https : Bool) : (tlsLine https).WF := by
  have hauto : IsWord "auto" := by decide
  have hoff : IsWord "off" := by decide
  refine ⟨by decide, ?_⟩
  intro a ha
  rw [mem_singleton.mp ha]
  cases https with
  | false => exact hoff
  | true => exact hauto

theorem upstreamDoc_wf {e : Emitted} (he : e ∈ emitted managed routes) (hns : Plain e.ns) :
    (upstreamDoc e.upName e.targets).WF := by
  have hupstream : Flow.IsKeyword "upstream".toList := by decide
  refine ⟨hupstream, ?_, ?_⟩
  · intro a ha
    rw [mem_singleton.mp ha]
    refine (plain_upName e).isWord ?_
    unfold Emitted.upName upstreamName
    simp
  · intro l hl
    obtain ⟨t, ht, rfl⟩ := mem_map.mp hl
    exact Target.line_wf he hns ht

theorem plan_document_wf (hlabels : ∀ r ∈ routes, r.metadata.IsLabelled) (hclean : CleanPatterns managed routes) :
    (plan (placements managed routes)).document.WF := by
  have hcomment : '\n' ∉ " Generated by the pulsate-k8s Gateway API controller. Do not edit.".toList := by decide
  have hsite : Flow.IsKeyword "site".toList := by decide
  refine ⟨hcomment, ?_⟩
  intro b hb
  rcases mem_append.mp hb with hb | hb
  · obtain ⟨u, hu, rfl⟩ := mem_map.mp hb
    obtain ⟨p, hp, rfl⟩ := mem_plan_upstreams hu
    have he := (mem_placements.mp hp).1
    exact upstreamDoc_wf he (plain_nsOrEmpty (hlabels _ (mem_emitted.mp he).1))
  · obtain ⟨⟨host, s⟩, hs, rfl⟩ := mem_map.mp hb
    obtain ⟨⟨p, hp, rfl⟩, rfl⟩ := mem_plan_sites.mp hs
    refine ⟨hsite, ?_, ?_⟩
    · intro a ha
      rw [mem_singleton.mp ha]
      obtain ⟨hplain, hne⟩ := (placement_host hp).plain
      exact hplain.isWord hne
    · intro l hl
      rcases mem_cons.mp hl with rfl | hl
      · exact tlsLine_wf _
      · obtain ⟨n, hn, rfl⟩ := mem_map.mp hl
        obtain ⟨⟨k, n⟩, he, rfl⟩ := mem_map.mp hn
        obtain ⟨-, q, hq, -, hn⟩ := mem_sitePlan_routes he
        have hq' := (mem_placements.mp hq).1
        exact Entry.line_wf hq' hn (hclean _ hq' _ hn)

/-! ## Trees -/

theorem Target.line_tree (ns : Str) (b : HTTPBackendRef) : (target ns b).line.tree = (target ns b).stmt := by
  have hw : (target ns b).weight < 2 ^ 63 := by
    have := (b.weight.getD 1).toNat_lt
    show (b.weight.getD 1).toNat < 2 ^ 63
    omega
  unfold Target.line Target.stmt
  generalize (target ns b).weight = w at hw
  show Stmt.directive ⟨_, List.map Flow.WordArg.tree _, _⟩ = _
  rw [map_cons]
  split
  · simp only [Flow.WordArg.tree, typeAtom_url]
    rfl
  · simp only [map_cons, map_nil, Flow.WordArg.tree, typeAtom_url, Flow.typeAtom_natText hw]
    rfl

theorem Entry.line_tree (hm : ∀ m ∈ n.method, IsMethod m) : n.line.tree = n.stmt := by
  obtain ⟨kind, pattern, method, upstream⟩ := n
  unfold Entry.line Entry.stmt Entry.tree
  show Stmt.route (Flow.RouteLine.tree _) = _
  unfold Flow.RouteLine.tree
  simp only [Flow.typeAtom_ref]
  have hpred : ((method.map (("method".toList, ·))).toList.map (fun p : Str × Str =>
      (⟨p.1, Flow.valueToLexeme (typeAtom p.2), Flow.Span.zero⟩ : Flow.Predicate))) =
      method.toList.map (fun m => ⟨"method", m, Flow.Span.zero⟩) := by
    cases method with
    | none => rfl
    | some m =>
      simp only [Option.map_some, Option.toList_some, map_cons, map_nil, (hm m rfl).typeAtom]
      rfl
  rw [hpred]
  cases kind with
  | Exact => simp only [decide_true, if_true]; rfl
  | Prefix => simp only [reduceCtorEq, decide_false, Bool.false_eq_true, if_false]; rfl

theorem tlsLine_tree (https : Bool) : (tlsLine https).tree = tlsStmt https := by
  cases https with
  | false => rfl
  | true => rfl

theorem upstreamDoc_tree (e : Emitted) : (upstreamDoc e.upName e.targets).tree = e.stmt := by
  unfold Emitted.stmt upstreamStmt blockStmt
  show Stmt.block _ [Flow.WordArg.tree _] (List.map _ (List.map _ _)) _ = _
  rw [map_map, Flow.WordArg.tree, typeAtom_upName]
  congr 1
  refine map_congr_left (fun t ht => ?_)
  obtain ⟨b, -, rfl⟩ := mem_map.mp ht
  exact Target.line_tree _ b

theorem plan_document_tree : (plan (placements managed routes)).document.tree =
    ⟨(plan (placements managed routes)).stmts typeAtom⟩ := by
  unfold Flow.Document.tree Plan.document Plan.stmts
  rw [map_append, map_map, map_map]
  congr 2
  · refine map_congr_left (fun u hu => ?_)
    obtain ⟨p, hp, rfl⟩ := mem_plan_upstreams hu
    exact upstreamDoc_tree p.toEmitted
  · refine map_congr_left (fun e he => ?_)
    obtain ⟨host, s⟩ := e
    obtain ⟨-, rfl⟩ := mem_plan_sites.mp he
    unfold siteStmt blockStmt
    show Stmt.block _ [Flow.WordArg.tree _] (List.map _ (_ :: List.map _ _)) _ = _
    rw [map_cons, map_map, Flow.WordArg.tree, tlsLine_tree]
    congr 2
    refine map_congr_left (fun n hn => ?_)
    obtain ⟨⟨k, n⟩, he, rfl⟩ := mem_map.mp hn
    obtain ⟨-, q, hq, -, hn⟩ := mem_sitePlan_routes he
    exact Entry.line_tree (isMethod_of_entry (mem_placements.mp hq).1 hn)

theorem parse_plan (hlabels : ∀ r ∈ routes, r.metadata.IsLabelled) (hclean : CleanPatterns managed routes) :
    ∃ ast, Flow.parse (plan (placements managed routes)).document.text = .ok ast ∧
      ast.erase.stmts = (plan (placements managed routes)).stmts typeAtom := by
  obtain ⟨ast, hast, htree⟩ := Flow.Document.parse_text (plan_document_wf hlabels hclean)
  exact ⟨ast, hast, by rw [htree, plan_document_tree]⟩

/-! ## The intended tree -/

theorem perm_upstreams (hup : ((emitted managed routes).map Emitted.upName).Nodup) :
    (plan (placements managed routes)).upstreams.entries.Perm
      ((emitted managed routes).map (fun e => (e.upName, e.targets))) := by
  have hinj := inj_on_of_nodup_map hup
  have hnd : ((emitted managed routes).map (fun e => (e.upName, e.targets))).Nodup := by
    refine List.Nodup.of_map Prod.fst ?_
    rw [map_map]
    exact hup
  refine (perm_ext_iff_of_nodup (nodup_entries _) hnd).mpr ?_
  intro u
  obtain ⟨name, targets⟩ := u
  rw [mem_entries_iff, plan, get?_insertAll_empty_iff]
  · rw [mem_map, mem_map]
    constructor
    · rintro ⟨p, hp, he⟩
      exact ⟨p.toEmitted, (mem_placements.mp hp).1, he⟩
    · rintro ⟨e, he, hu⟩
      obtain ⟨p, hp, rfl⟩ := exists_placement he
      exact ⟨p, hp, hu⟩
  · intro u hu u' hu' hk
    obtain ⟨p, hp, rfl⟩ := mem_map.mp hu
    obtain ⟨q, hq, rfl⟩ := mem_map.mp hu'
    exact congrArg Emitted.targets (hinj (mem_placements.mp hp).1 (mem_placements.mp hq).1 hk)

theorem plan_intended (hup : ((emitted managed routes).map Emitted.upName).Nodup) :
    Intended managed routes ((plan (placements managed routes)).stmts .str) := by
  have hmethods : ∀ p ∈ placements managed routes, ∀ n ∈ p.toEmitted.entries, n.method ≠ some [] :=
    fun p hp n hn => mem_entries_method (mem_placements.mp hp).1 hn
  refine ⟨(plan (placements managed routes)).upstreams.entries.map (fun u => upstreamStmt u.1 u.2),
    (plan (placements managed routes)).sites.keys,
    fun h => (sitePlan (placements managed routes) h).routes.values, ?_, ?_, nodup_keys _, ?_, ?_⟩
  · unfold Plan.stmts
    rw [Lib.OrdMap.keys, map_map]
    congr 1
    refine map_congr_left (fun e he => ?_)
    obtain ⟨host, s⟩ := e
    obtain ⟨-, rfl⟩ := mem_plan_sites.mp he
    rfl
  · have h := (perm_upstreams hup).map (fun u => upstreamStmt u.1 u.2)
    rw [map_map] at h
    exact h
  · intro h
    rw [mem_keys_iff]
    constructor
    · rintro ⟨s, hs⟩
      exact (mem_plan_sites.mp (mem_entries_iff.mpr hs)).1
    · intro hex
      exact ⟨_, mem_entries_iff.mp (mem_plan_sites.mpr ⟨hex, rfl⟩)⟩
  · exact fun h => ⟨nodup_sitePlan_values _ h, fun n => mem_sitePlan_values hmethods⟩

end Pulsate.K8s
