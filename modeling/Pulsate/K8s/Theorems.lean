import Pulsate.Flow.Lemmas.Faithful
import Pulsate.K8s.Lemmas.Tree

/-!
# The translation of Gateway API objects

What the generated configuration guarantees to the owners of the objects it comes from, over any set of
objects: whose backends an upstream lists, which listeners put a rule on a host, that the order of the
input lists does not show, and what the text is read as.
-/

namespace Pulsate.K8s

open List

variable {classes : List GatewayClass} {gateways : List Gateway} {routes : List HTTPRoute}
  {controllerName : Str}

/-! ## Example objects -/

def exampleController : Str := "pulsate.dev/gateway"

def exampleClass : GatewayClass := ⟨⟨some "pulsate", none⟩, exampleController⟩

def httpListener : Listener := ⟨"http", none, "HTTP"⟩

def namedListeners : List Listener :=
  [⟨"plain", some "plain.example", "HTTP"⟩, ⟨"secure", some "secure.example", "HTTPS"⟩]

def exampleGateway (listeners : List Listener) : Gateway :=
  ⟨⟨some "gw", some "infra"⟩, "pulsate", listeners⟩

def exampleRule (backend : Str) : HTTPRouteRule := ⟨[], [⟨backend, none, some 8080, none⟩]⟩

/-- A route of one rule attached to the example gateway. -/
def exampleRoute (ns name backend : Str) (hosts : List Str) (sectionName : Option Str) : HTTPRoute :=
  ⟨⟨some name, some ns⟩, [⟨"gw", some "infra", sectionName⟩], hosts, [exampleRule backend]⟩

/-- The gateways that the controller manages there. -/
abbrev exampleManaged : Lib.OrdMap (Str ×ₗ Str) Gateway :=
  managedGateways [exampleClass] [exampleGateway [httpListener]] exampleController

/-- What is gathered from routes attached to them, and its text. -/
abbrev exampleAcc (routes : List HTTPRoute) : Acc :=
  translate [exampleClass] [exampleGateway [httpListener]] routes exampleController

abbrev exampleFlow (routes : List HTTPRoute) : Str :=
  toFlow [exampleClass] [exampleGateway [httpListener]] routes exampleController

/-! ## Upstreams -/

section Upstreams

/-- Kubernetes' rules for the names of a namespaced object. -/
def Metadata.IsNamed (m : Metadata) : Prop :=
  ∃ ns name, m = ⟨some name, some ns⟩ ∧ isDnsLabel ns ∧ isDnsSubdomain name

/-- What identifies a rule: its route's namespace and name, and its index. -/
def Emitted.triple (e : Emitted) : Str × Str × Nat := (e.ns, e.name, e.idx)

theorem Metadata.IsNamed.nameChars {m : Metadata} (h : m.IsNamed) :
    (∀ c ∈ m.nsOrEmpty, isNameChar c) ∧ ∀ c ∈ m.nameOrEmpty, isNameChar c := by
  obtain ⟨ns, name, rfl, hns, hname⟩ := h
  exact ⟨isNameChar_of_label hns, isNameChar_of_subdomain hname⟩

theorem upName_eq_iff_of_isNamed {e e' : Emitted} (h : e.route.metadata.IsNamed)
    (h' : e'.route.metadata.IsNamed) :
    e.upName = e'.upName ↔ e.idx = e'.idx ∧ blur e.path = blur e'.path :=
  upName_eq_iff h.nameChars.1 h.nameChars.2 h'.nameChars.1 h'.nameChars.2

theorem eq_of_triple_eq {managed : Lib.OrdMap (Str ×ₗ Str) Gateway}
    (hnamed : ∀ r ∈ routes, r.metadata.IsNamed) (huniq : (routes.map (·.metadata)).Nodup) {e e' : Emitted}
    (he : e ∈ emitted managed routes) (he' : e' ∈ emitted managed routes) (h : e.triple = e'.triple) :
    e = e' := by
  obtain ⟨hmem, _, _, hi, _⟩ := mem_emitted.mp he
  obtain ⟨hmem', _, _, hi', _⟩ := mem_emitted.mp he'
  obtain ⟨ns, name, hm, _⟩ := hnamed _ hmem
  obtain ⟨ns', name', hm', _⟩ := hnamed _ hmem'
  obtain ⟨route, rule, idx⟩ := e
  obtain ⟨route', rule', idx'⟩ := e'
  simp only at hm hm' hi hi'
  simp only [Emitted.triple, Emitted.ns, Emitted.name, Metadata.nsOrEmpty, Metadata.nameOrEmpty, hm, hm',
    Option.getD_some, Prod.mk.injEq] at h
  obtain ⟨rfl, rfl, rfl⟩ := h
  have hr : route = route' := inj_on_of_nodup_map huniq hmem hmem' (hm.trans hm'.symm)
  subst hr
  rw [hi] at hi'
  cases hi'
  rfl

theorem get?_upstreams_of_injective {managed : Lib.OrdMap (Str ×ₗ Str) Gateway}
    (hinj : ∀ e ∈ emitted managed routes, ∀ e' ∈ emitted managed routes, e.upName = e'.upName → e = e')
    {e : Emitted} (he : e ∈ emitted managed routes) :
    ((placements managed routes).foldl Placement.place ⟨∅, ∅⟩).upstreams.get? e.upName = some e.block := by
  rw [foldl_place_upstreams, Lib.OrdMap.get?_insertAll_empty_iff]
  · obtain ⟨p, hp, rfl⟩ := exists_placement he
    exact mem_map.mpr ⟨p, hp, rfl⟩
  · intro b hb b' hb' hk
    obtain ⟨p, hp, rfl⟩ := mem_map.mp hb
    obtain ⟨q, hq, rfl⟩ := mem_map.mp hb'
    simp only [hinj _ (mem_placements.mp hp).1 _ (mem_placements.mp hq).1 hk]

/-- The block, written out on its own, is read as one upstream of the name with these targets. -/
def Lists (block name : Str) (targets : List Target) : Prop :=
  ∃ ast, Flow.parse (header ++ ("\n" ++ block ++ "\n")) = .ok ast ∧ ast.erase.stmts = [upstreamStmt name targets]

theorem lists_block {managed : Lib.OrdMap (Str ×ₗ Str) Gateway} {e : Emitted} (he : e ∈ emitted managed routes)
    (hnamed : e.route.metadata.IsNamed) : Lists e.block e.upName e.targets := by
  have hheader : header = "#" ++ (plan []).document.comment ++ "\n" := by decide
  have hcomment : '\n' ∉ (plan []).document.comment := by decide
  obtain ⟨ast, hast, htree⟩ := @Flow.Document.parse_text ⟨_, [upstreamDoc e.upName e.targets]⟩
    ⟨hcomment, forall_mem_singleton.mpr (upstreamDoc_wf he (plain_of_nameChars hnamed.nameChars.1))⟩
  rw [Flow.Document.text, flatMap_singleton, ← block_eq, ← hheader] at hast
  refine ⟨ast, hast, ?_⟩
  rw [htree]
  exact congrArg (fun s => [s]) (upstreamDoc_tree e)

/-- Two routes of different namespaces whose rules are given one upstream. -/
def aliasedRoutes : List HTTPRoute :=
  [exampleRoute "a-b" "c" "shop" ["one.example"] none, exampleRoute "a" "b-c" "bank" ["two.example"] none]

theorem aliasedRoutes_isNamed : ∀ r ∈ aliasedRoutes, r.metadata.IsNamed :=
  forall_mem_cons.mpr ⟨⟨_, _, rfl, by decide, by decide⟩, forall_mem_singleton.mpr ⟨_, _, rfl, by decide, by decide⟩⟩

/-- Two routes of one name in two namespaces. -/
def namesakes : List HTTPRoute :=
  [exampleRoute "a-b" "c" "shop" ["one.example"] none, exampleRoute "a" "c" "bank" ["two.example"] none]

end Upstreams

/-! ## Listeners -/

section Listeners

/-- The host is accepted by a listener that a parent reference of the route names. -/
def Attached (managed : Lib.OrdMap (Str ×ₗ Str) Gateway) (route : HTTPRoute) (host : Str) (https : Bool) :
    Prop :=
  ∃ ref ∈ route.parentRefs, ∃ g ∈ managed.get? (toLex (ref.ns.getD route.metadata.nsOrEmpty, ref.name)),
    ∃ l ∈ g.listeners, (∀ s ∈ ref.sectionName, l.name = s) ∧ (host, https) ∈ listenerHosts l route.hostnames

/-- The host is accepted by another listener of a gateway than the one the parent reference names. -/
def Stray (managed : Lib.OrdMap (Str ×ₗ Str) Gateway) (route : HTTPRoute) (host : Str) (https : Bool) : Prop :=
  ∃ ref ∈ route.parentRefs, ∃ g ∈ managed.get? (toLex (ref.ns.getD route.metadata.nsOrEmpty, ref.name)),
    ∃ l ∈ g.listeners, (∃ s ∈ ref.sectionName, l.name ≠ s) ∧ (host, https) ∈ listenerHosts l route.hostnames

instance (managed : Lib.OrdMap (Str ×ₗ Str) Gateway) (route : HTTPRoute) (host : Str) (https : Bool) :
    Decidable (Attached managed route host https) := by
  unfold Attached; infer_instance

theorem mem_hostsOf_iff {managed : Lib.OrdMap (Str ×ₗ Str) Gateway} {route : HTTPRoute} {host : Str}
    {https : Bool} :
    (host, https) ∈ hostsOf managed route ↔
      Attached managed route host https ∨ Stray managed route host https := by
  rw [mem_hostsOf]
  constructor
  · rintro ⟨ref, href, g, hg, l, hl, hh⟩
    by_cases hs : ∀ s ∈ ref.sectionName, l.name = s
    · exact .inl ⟨ref, href, g, hg, l, hl, hs, hh⟩
    · simp only [not_forall] at hs
      obtain ⟨s, hs, hne⟩ := hs
      exact .inr ⟨ref, href, g, hg, l, hl, ⟨s, hs, hne⟩, hh⟩
  · rintro (⟨ref, href, g, hg, l, hl, _, hh⟩ | ⟨ref, href, g, hg, l, hl, _, hh⟩)
    · exact ⟨ref, href, g, hg, l, hl, hh⟩
    · exact ⟨ref, href, g, hg, l, hl, hh⟩

/-- A site has TLS because some rule is on its host through an HTTPS listener. -/
theorem https_iff {host : Str} {site : SiteAcc}
    (h : (translate classes gateways routes controllerName).sites.get? host = some site) :
    site.https ↔ ∃ e ∈ emitted (managedGateways classes gateways controllerName) routes,
      (host, true) ∈ hostsOf (managedGateways classes gateways controllerName) e.route := by
  rw [translate_eq, foldl_place_sites] at h
  split at h
  · cases h
    simp only [SitePlan.acc, sitePlan, any_eq_true, decide_eq_true_eq]
    constructor
    · rintro ⟨p, hp, rfl, hs⟩
      obtain ⟨he, hh⟩ := mem_placements.mp hp
      exact ⟨_, he, hs ▸ hh⟩
    · rintro ⟨e, he, hh⟩
      exact ⟨⟨e, host, true⟩, mem_placements.mpr ⟨he, hh⟩, rfl, rfl⟩
  · cases h

/-- Rules are only on hosts, and sites only have TLS, by listeners that a parent reference names, exactly if
what the other listeners of a route's gateways accept is also accepted by such a listener. -/
theorem listeners_honoured_iff :
    ((∀ p ∈ placements (managedGateways classes gateways controllerName) routes,
        ∃ https, Attached (managedGateways classes gateways controllerName) p.toEmitted.route p.host https) ∧
      ∀ host site, (translate classes gateways routes controllerName).sites.get? host = some site →
        site.https → ∃ e ∈ emitted (managedGateways classes gateways controllerName) routes,
          Attached (managedGateways classes gateways controllerName) e.route host true) ↔
    ∀ e ∈ emitted (managedGateways classes gateways controllerName) routes, ∀ host https,
      Stray (managedGateways classes gateways controllerName) e.route host https →
        (∃ https', Attached (managedGateways classes gateways controllerName) e.route host https') ∧
          (https → ∃ e' ∈ emitted (managedGateways classes gateways controllerName) routes,
            Attached (managedGateways classes gateways controllerName) e'.route host true) := by
  constructor
  · rintro ⟨hplaced, htls⟩ e he host https hstray
    have hp : (⟨e, host, https⟩ : Placement) ∈
        placements (managedGateways classes gateways controllerName) routes :=
      mem_placements.mpr ⟨he, mem_hostsOf_iff.mpr (.inr hstray)⟩
    refine ⟨hplaced _ hp, ?_⟩
    rintro rfl
    obtain ⟨site, hsite⟩ : ∃ site,
        (translate classes gateways routes controllerName).sites.get? host = some site := by
      rw [translate_eq, foldl_place_sites, if_pos ⟨_, hp, rfl⟩]
      exact ⟨_, rfl⟩
    exact htls host site hsite ((https_iff hsite).mpr ⟨e, he, (mem_placements.mp hp).2⟩)
  · intro h
    constructor
    · intro p hp
      obtain ⟨he, hh⟩ := mem_placements.mp hp
      rcases mem_hostsOf_iff.mp hh with hh | hh
      · exact ⟨_, hh⟩
      · exact (h _ he _ _ hh).1
    · intro host site hsite htls
      obtain ⟨e, he, hh⟩ := (https_iff hsite).mp htls
      rcases mem_hostsOf_iff.mp hh with hh | hh
      · exact ⟨e, he, hh⟩
      · exact (h e he host true hh).2 rfl

/-- A route that names the plain listener of a gateway is also put on the host of the other one. -/
theorem listeners_not_honoured :
    ∃ p ∈ placements (managedGateways [exampleClass] [exampleGateway namedListeners] exampleController)
        [exampleRoute "team" "web" "shop" [] (some "plain")],
      p.host = "secure.example" ∧ p.https ∧
        ¬ ∃ https, Attached
          (managedGateways [exampleClass] [exampleGateway namedListeners] exampleController)
          p.toEmitted.route p.host https := by
  decide

end Listeners

/-! ## Order -/

section Order

/-- The text does not depend on the order of any list of the input but that of a route's rules. -/
theorem toFlow_reordered {classes' : List GatewayClass} {gateways' : List Gateway}
    {routes' : List HTTPRoute} (hclasses : classes.Perm classes')
    (hgateways : Lib.Reordered Gateway.SameUpToOrder gateways gateways')
    (hroutes : Lib.Reordered HTTPRoute.SameUpToOrder routes routes')
    (hgn : (gateways.map (·.metadata.id)).Nodup)
    (hup : ((emitted (managedGateways classes gateways controllerName) routes).map Emitted.upName).Nodup) :
    toFlow classes gateways routes controllerName = toFlow classes' gateways' routes' controllerName := by
  have hgn' : (gateways'.map (·.metadata.id)).Nodup :=
    (hgateways.map_perm (fun g g' h => congrArg Metadata.id h.metadata)).nodup_iff.mp hgn
  have hcov : Covers (managedGateways classes gateways controllerName)
      (managedGateways classes' gateways' controllerName) :=
    managedGateways_covers hclasses (fun _ => hgateways.exists_right) hgn hgn'
  have hcov' : Covers (managedGateways classes' gateways' controllerName)
      (managedGateways classes gateways controllerName) := by
    refine managedGateways_covers hclasses.symm (fun g' hg' => ?_) hgn' hgn
    obtain ⟨g, hg, hs⟩ := hgateways.exists_left hg'
    exact ⟨g, hg, hs.symm⟩
  have hroutes' : ∀ r' ∈ routes', ∃ r ∈ routes, r'.SameUpToOrder r := by
    intro r' hr'
    obtain ⟨r, hr, hs⟩ := hroutes.exists_left hr'
    exact ⟨r, hr, hs.symm⟩
  rw [toFlow_eq, toFlow_eq]
  apply congrArg (fun p : Plan => p.document.text)
  apply plan_congr
  · exact fun p hp => exists_same_placement hcov (fun _ => hroutes.exists_right) hp
  · exact fun p hp => exists_same_placement hcov' hroutes' hp
  · exact fun p hp n hn => mem_entries_method (mem_placements.mp hp).1 hn
  · exact fun p hp q hq h => inj_on_of_nodup_map hup (mem_placements.mp hp).1 (mem_placements.mp hq).1 h

theorem exampleRoute_sameUpToOrder {ns name backend : Str} {hosts hosts' : List Str} {sectionName : Option Str}
    (h : hosts.Perm hosts') :
    (exampleRoute ns name backend hosts sectionName).SameUpToOrder
      (exampleRoute ns name backend hosts' sectionName) :=
  ⟨rfl, List.Perm.refl _, h, rfl⟩

theorem toFlow_reordered_two :
    toFlow [exampleClass] [exampleGateway namedListeners]
        [exampleRoute "a" "x" "shop" ["one.example", "two.example"] none, exampleRoute "b" "y" "bank" [] none]
        exampleController =
      toFlow [exampleClass] [exampleGateway namedListeners.reverse]
        [exampleRoute "b" "y" "bank" [] none, exampleRoute "a" "x" "shop" ["two.example", "one.example"] none]
        exampleController := by
  apply toFlow_reordered
  · exact List.Perm.refl _
  · exact ⟨_, List.Perm.refl _, .cons ⟨rfl, rfl, (reverse_perm _).symm⟩ .nil⟩
  · refine ⟨_, List.Perm.swap (exampleRoute "b" "y" "bank" [] none) _ [], .cons ?_ (.cons ?_ .nil)⟩
    · exact exampleRoute_sameUpToOrder (List.Perm.refl _)
    · exact exampleRoute_sameUpToOrder (by decide)
  · decide
  · decide

end Order

/-! ## Text -/

section Text

open Pulsate.Flow (typeAtom)

variable {managed : Lib.OrdMap (Str ×ₗ Str) Gateway}

theorem cleanPatterns_iff : CleanPatterns managed routes ↔
    ∀ e ∈ emitted managed routes, ∀ m ∈ e.rule.matches_, ∀ p ∈ m.path, ∀ c ∈ p.value, isLoose c = false := by
  constructor
  · intro h e he m hm
    have hmem : m ∈ e.rule.effective := by
      rw [HTTPRouteRule.effective, if_neg (ne_nil_of_mem hm)]
      exact hm
    exact (loose_matchPattern m).mp (h e he _ (mem_map.mpr ⟨m, hmem, rfl⟩))
  · intro h e he n hn
    obtain ⟨m, hm, rfl⟩ := mem_map.mp hn
    refine (loose_matchPattern m).mpr (fun p hp => ?_)
    rw [HTTPRouteRule.effective] at hm
    split at hm
    · rw [mem_singleton.mp hm] at hp
      cases hp
    · exact h e he m hm p hp

theorem isAtomEnd_of_isLoose {c : Char} (h : isLoose c) : Flow.isAtomEnd c := by
  simp only [isLoose, Bool.or_eq_true, beq_iff_eq] at h
  rcases h with (((rfl | rfl) | rfl) | rfl) | rfl <;> rfl

theorem mem_patterns_of_intended {stmts : List Flow.Stmt} (h : Intended managed routes stmts) {e : Emitted}
    (he : e ∈ emitted managed routes) {n : Entry} (hn : n ∈ e.entries) :
    n.pattern ∈ Flow.Stmt.patterns.patternsAll stmts := by
  obtain ⟨ups, hosts, entries, rfl, -, -, hhosts, hentries⟩ := h
  obtain ⟨p, hp, rfl⟩ := exists_placement he
  rw [Flow.Stmt.patternsAll_eq_flatMap, mem_flatMap]
  refine ⟨_, mem_append_right _ (mem_map.mpr ⟨p.host, (hhosts p.host).mpr ⟨p, hp, rfl⟩, rfl⟩), ?_⟩
  show n.pattern ∈ Flow.Stmt.patterns.patternsAll (tlsStmt _ :: (entries p.host).map Entry.stmt)
  rw [Flow.Stmt.patternsAll_eq_flatMap, mem_flatMap]
  refine ⟨n.stmt, mem_cons_of_mem _ (mem_map.mpr ⟨n, ((hentries p.host).2 n).mpr ⟨p, hp, rfl, hn⟩, rfl⟩), ?_⟩
  exact mem_singleton.mpr rfl

theorem typeAtom_of_intended (h : Intended managed routes ((plan (placements managed routes)).stmts typeAtom))
    {p : Placement} (hp : p ∈ placements managed routes) : typeAtom p.host = .str p.host := by
  obtain ⟨ups, hosts, entries, hstmts, hups, -, -, -⟩ := h
  have hmem : siteStmt (typeAtom p.host) (sitePlan (placements managed routes) p.host).https
      (sitePlan (placements managed routes) p.host).routes.values ∈
        (plan (placements managed routes)).stmts typeAtom :=
    mem_append_right _ (mem_map.mpr ⟨_, mem_plan_sites.mpr ⟨⟨p, hp, rfl⟩, rfl⟩, rfl⟩)
  rw [hstmts] at hmem
  rcases mem_append.mp hmem with hm | hm
  · obtain ⟨e, -, he⟩ := mem_map.mp (hups.subset hm)
    injection he with hk
    injection hk with hk
    exact absurd hk (by decide)
  · obtain ⟨host, -, he⟩ := mem_map.mp hm
    injection he with _ hargs
    injection hargs with harg
    injection harg with hval
    injection hval with hval
    rw [← hval, Flow.eq_of_typeAtom hval.symm]

/-- The text parses to exactly the intended tree if no path of an emitted match holds one of `[`, `]`, `,`,
`=` and `;`, and no host is read as a literal; otherwise it does not. -/
theorem toFlow_exact_iff (hlabels : ∀ r ∈ routes, r.metadata.IsLabelled)
    (hup : ((emitted (managedGateways classes gateways controllerName) routes).map Emitted.upName).Nodup) :
    (∃ ast, Flow.parse (toFlow classes gateways routes controllerName) = .ok ast ∧
      Intended (managedGateways classes gateways controllerName) routes ast.erase.stmts) ↔
    (∀ e ∈ emitted (managedGateways classes gateways controllerName) routes, ∀ m ∈ e.rule.matches_,
        ∀ p ∈ m.path, ∀ c ∈ p.value, c ≠ '[' ∧ c ≠ ']' ∧ c ≠ ',' ∧ c ≠ '=' ∧ c ≠ ';') ∧
      ∀ p ∈ placements (managedGateways classes gateways controllerName) routes, typeAtom p.host = .str p.host := by
  have hloose : ∀ c, (c ≠ '[' ∧ c ≠ ']' ∧ c ≠ ',' ∧ c ≠ '=' ∧ c ≠ ';') ↔ isLoose c = false := by
    intro c
    simp only [isLoose, Bool.or_eq_false_iff, beq_eq_false_iff_ne, and_assoc]
  simp only [hloose, toFlow_eq]
  generalize managedGateways classes gateways controllerName = managed at hup ⊢
  rw [← cleanPatterns_iff]
  constructor
  · rintro ⟨ast, hparse, hint⟩
    have hclean : CleanPatterns managed routes := by
      intro e he n hn c hc
      have hmem := mem_patterns_of_intended hint he hn
      rw [Flow.Ast.erase, Flow.Stmt.patternsAll_eraseAll] at hmem
      have hend := Flow.parse_patterns hparse _ hmem c hc
      by_contra hne
      rw [isAtomEnd_of_isLoose (Bool.not_eq_false _ ▸ hne)] at hend
      cases hend
    obtain ⟨ast', hparse', hstmts⟩ := parse_plan hlabels hclean
    rw [hparse] at hparse'
    cases hparse'
    rw [hstmts] at hint
    exact ⟨hclean, fun p hp => typeAtom_of_intended hint hp⟩
  · rintro ⟨hclean, hhosts⟩
    obtain ⟨ast, hparse, hstmts⟩ := parse_plan hlabels hclean
    refine ⟨ast, hparse, ?_⟩
    have hstr : (plan (placements managed routes)).stmts typeAtom = (plan (placements managed routes)).stmts .str := by
      unfold Plan.stmts
      apply congrArg (_ ++ ·)
      refine map_congr_left (fun e he => ?_)
      obtain ⟨host, s⟩ := e
      obtain ⟨⟨p, hp, rfl⟩, -⟩ := mem_plan_sites.mp he
      rw [hhosts p hp]
    rw [hstmts, hstr]
    exact plan_intended hup

/-- A route for one path. -/
def pathRoute (path : Str) : HTTPRoute :=
  { exampleRoute "team" "web" "shop" ["shop.example"] none with
    rules := [{ exampleRule "shop" with matches_ := [⟨some ⟨"Exact", path⟩, none⟩] }] }

theorem pathRoute_isLabelled (path : Str) : ∀ r ∈ [pathRoute path], r.metadata.IsLabelled := by
  intro r hr
  rw [mem_singleton.mp hr]
  exact (show (exampleRoute "team" "web" "shop" ["shop.example"] none).metadata.IsLabelled from
    ⟨by decide, by decide⟩)

/-- A path with a semicolon, which the validation accepts, makes the whole text unreadable. -/
theorem toFlow_not_exact :
    (∀ r ∈ [pathRoute "/a;b"], r.metadata.IsLabelled) ∧
      ((emitted exampleManaged [pathRoute "/a;b"]).map Emitted.upName).Nodup ∧
      ¬ ∃ ast, Flow.parse (exampleFlow [pathRoute "/a;b"]) = .ok ast := by
  refine ⟨pathRoute_isLabelled _, by decide, ?_⟩
  rintro ⟨ast, h⟩
  have hnone : (Flow.parse (exampleFlow [pathRoute "/a;b"])).toOption.isNone := by decide +kernel
  rw [h] at hnone
  cases hnone

theorem toFlow_exact_iff_one :
    ∃ ast, Flow.parse (exampleFlow [pathRoute "/a"]) =
        .ok ast ∧
      Intended exampleManaged [pathRoute "/a"]
        ast.erase.stmts := by
  refine (toFlow_exact_iff (pathRoute_isLabelled _) (by decide)).mpr ⟨?_, ?_⟩
  · intro e he m hm p hp
    have hvalue : p.value = "/a" := by
      revert e m p
      decide
    rw [hvalue]
    exact Str.forall_mem_of_all (by decide)
  · intro p hp
    have hhost : p.host = "shop.example" := by
      revert p
      decide
    rw [hhost]
    rfl

end Text

end Pulsate.K8s
