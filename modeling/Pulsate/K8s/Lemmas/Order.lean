import Pulsate.K8s.Lemmas.Plan
import Mathlib.Data.List.Nodup

/-!
# Input order

Objects that list the same things in another order have the same placements, up to the order within the
objects the placements come from. A translation is determined by its set of placements: the key of a
route line determines the line, and where upstream names are distinct a name determines its block.
-/

namespace Pulsate.K8s

open List

variable {r r' : HTTPRoute} {routes : List HTTPRoute}

/-! ## Reordered inputs -/

/-- The same route, its parents and hostnames in any order. -/
structure HTTPRoute.SameUpToOrder (r r' : HTTPRoute) : Prop where
  metadata : r.metadata = r'.metadata
  parentRefs : r.parentRefs.Perm r'.parentRefs
  hostnames : r.hostnames.Perm r'.hostnames
  rules : r.rules = r'.rules

/-- The same gateway, its listeners in any order. -/
structure Gateway.SameUpToOrder (g g' : Gateway) : Prop where
  metadata : g.metadata = g'.metadata
  gatewayClassName : g.gatewayClassName = g'.gatewayClassName
  listeners : g.listeners.Perm g'.listeners

theorem HTTPRoute.SameUpToOrder.symm (h : r.SameUpToOrder r') : r'.SameUpToOrder r :=
  ⟨h.metadata.symm, h.parentRefs.symm, h.hostnames.symm, h.rules.symm⟩

theorem Gateway.SameUpToOrder.symm {g g' : Gateway} (h : g.SameUpToOrder g') : g'.SameUpToOrder g :=
  ⟨h.metadata.symm, h.gatewayClassName.symm, h.listeners.symm⟩

/-! ## Managed gateways -/

/-- The namespace and name of an object. -/
def Metadata.id (m : Metadata) : Str × Str := (m.nsOrEmpty, m.nameOrEmpty)

theorem managedGateways_get? {classes : List GatewayClass} {gateways : List Gateway} {controllerName : Str}
    (hnd : (gateways.map (·.metadata.id)).Nodup) {k : Str ×ₗ Str} {g : Gateway} :
    (managedGateways classes gateways controllerName).get? k = some g ↔
      g ∈ gateways ∧ g.gatewayClassName ∈ managedClasses classes controllerName ∧
        ∃ name, g.metadata.name = some name ∧ k = toLex (g.metadata.nsOrEmpty, name) := by
  rw [managedGateways, Lib.OrdMap.get?_insertAll_empty_iff]
  · simp only [mem_filterMap, mem_filter, Option.map_eq_some_iff, Prod.mk.injEq,
      contains_iff_mem]
    constructor
    · rintro ⟨g', ⟨hg, hc⟩, name, hn, rfl, rfl⟩
      exact ⟨hg, hc, name, hn, rfl⟩
    · rintro ⟨hg, hc, name, hn, rfl⟩
      exact ⟨g, ⟨hg, hc⟩, name, hn, rfl, rfl⟩
  · intro e he e' he' hk
    simp only [mem_filterMap, mem_filter, Option.map_eq_some_iff] at he he'
    obtain ⟨g, ⟨hg, _⟩, name, hn, rfl⟩ := he
    obtain ⟨g', ⟨hg', _⟩, name', hn', rfl⟩ := he'
    refine inj_on_of_nodup_map hnd hg hg' ?_
    have hk : (g.metadata.nsOrEmpty, name) = (g'.metadata.nsOrEmpty, name') := toLex.injective hk
    simpa [Metadata.id, Metadata.nameOrEmpty, hn, hn'] using hk

/-- Every gateway of one map is, up to order, the other's under the same key. -/
def Covers (managed managed' : Lib.OrdMap (Str ×ₗ Str) Gateway) : Prop :=
  ∀ k g, managed.get? k = some g → ∃ g', managed'.get? k = some g' ∧ g.SameUpToOrder g'

theorem managedGateways_covers {classes classes' : List GatewayClass} {gateways gateways' : List Gateway}
    {controllerName : Str} (hc : classes.Perm classes')
    (hg : ∀ g ∈ gateways, ∃ g' ∈ gateways', g.SameUpToOrder g')
    (hnd : (gateways.map (·.metadata.id)).Nodup) (hnd' : (gateways'.map (·.metadata.id)).Nodup) :
    Covers (managedGateways classes gateways controllerName)
      (managedGateways classes' gateways' controllerName) := by
  intro k g hk
  obtain ⟨hmem, hcls, name, hn, rfl⟩ := (managedGateways_get? hnd).mp hk
  obtain ⟨g', hmem', hsame⟩ := hg g hmem
  have hcls' : g'.gatewayClassName ∈ managedClasses classes' controllerName := by
    rw [← hsame.gatewayClassName]
    exact ((hc.filter _).filterMap _).mem_iff.mp hcls
  refine ⟨g', (managedGateways_get? hnd').mpr ⟨hmem', hcls', name, ?_, ?_⟩, hsame⟩
  · rw [← hsame.metadata, hn]
  · rw [hsame.metadata]

/-! ## Placements -/

theorem mem_listenerHosts_perm {l : Listener} {hs hs' : List Str} (hp : hs.Perm hs') {h : Str × Bool}
    (hh : h ∈ listenerHosts l hs) : h ∈ listenerHosts l hs' := by
  have hnil : hs = [] ↔ hs' = [] := by
    constructor
    · rintro rfl; exact hp.nil_eq.symm
    · rintro rfl; exact hp.eq_nil
  unfold listenerHosts at hh ⊢
  split at hh
  · cases hh
  · rename_i hv
    rw [if_neg hv]
    cases hl : l.hostname with
    | none =>
      simp only [hl, hnil] at hh ⊢
      split at hh
      · rename_i he; rw [if_pos he]; exact hh
      · rename_i he; rw [if_neg he]; exact (hp.map _).mem_iff.mp hh
    | some lh =>
      simp only [hl, hnil] at hh ⊢
      split at hh
      · rename_i he; rw [if_pos he]; exact hh
      · rename_i he; rw [if_neg he]; exact ((hp.filter _).map _).mem_iff.mp hh

section Covers

variable {managed managed' : Lib.OrdMap (Str ×ₗ Str) Gateway}

theorem mem_hostsOf_covers (hcov : Covers managed managed') (hr : r.SameUpToOrder r') {h : Str × Bool}
    (hh : h ∈ hostsOf managed r) : h ∈ hostsOf managed' r' := by
  obtain ⟨ref, href, g, hg, l, hl, hm⟩ := mem_hostsOf.mp hh
  obtain ⟨g', hg', hsame⟩ := hcov _ g hg
  refine mem_hostsOf.mpr ⟨ref, hr.parentRefs.mem_iff.mp href, g', ?_, l, hsame.listeners.mem_iff.mp hl,
    mem_listenerHosts_perm hr.hostnames hm⟩
  rw [← hr.metadata, hg']

theorem routeIsValid_same (hr : r.SameUpToOrder r') (h : routeIsValid r) : routeIsValid r' := by
  simp only [routeIsValid, Bool.and_eq_true, all_eq_true] at h ⊢
  refine ⟨fun host hh => h.1 host (hr.hostnames.mem_iff.mpr hh), ?_⟩
  rw [← hr.rules]
  exact h.2

/-- The same rule of the same route. -/
structure Emitted.Same (e e' : Emitted) : Prop where
  metadata : e.route.metadata = e'.route.metadata
  rule : e.rule = e'.rule
  idx : e.idx = e'.idx

theorem exists_same_emitted (hcov : Covers managed managed') {routes' : List HTTPRoute}
    (hr : ∀ r ∈ routes, ∃ r' ∈ routes', r.SameUpToOrder r') {e : Emitted} (he : e ∈ emitted managed routes) :
    ∃ e' ∈ emitted managed' routes', e.Same e' ∧ e.route.SameUpToOrder e'.route := by
  obtain ⟨hmem, hv, hh, hi, hb⟩ := mem_emitted.mp he
  obtain ⟨r', hmem', hsame⟩ := hr _ hmem
  obtain ⟨h, hh⟩ := exists_mem_of_ne_nil _ hh
  refine ⟨⟨r', e.rule, e.idx⟩, mem_emitted.mpr ⟨hmem', routeIsValid_same hsame hv, ?_, ?_, hb⟩,
    ⟨hsame.metadata, rfl, rfl⟩, hsame⟩
  · exact ne_nil_of_mem (mem_hostsOf_covers hcov hsame hh)
  · rw [← hsame.rules, hi]

theorem exists_same_placement (hcov : Covers managed managed') {routes' : List HTTPRoute}
    (hr : ∀ r ∈ routes, ∃ r' ∈ routes', r.SameUpToOrder r') {p : Placement} (hp : p ∈ placements managed routes) :
    ∃ p' ∈ placements managed' routes',
      p.toEmitted.Same p'.toEmitted ∧ p.host = p'.host ∧ p.https = p'.https := by
  obtain ⟨he, hh⟩ := mem_placements.mp hp
  obtain ⟨e', he', hs, hroute⟩ := exists_same_emitted hcov hr he
  exact ⟨⟨e', p.host, p.https⟩, mem_placements.mpr ⟨he', mem_hostsOf_covers hcov hroute hh⟩, hs, rfl, rfl⟩

end Covers

namespace Emitted.Same

variable {e e' : Emitted}

theorem ns (h : e.Same e') : e.ns = e'.ns := by
  rw [Emitted.ns, h.metadata, Emitted.ns]

theorem upName (h : e.Same e') : e.upName = e'.upName := by
  rw [Emitted.upName, Emitted.upName, h.ns, Emitted.name, Emitted.name, h.metadata, h.idx]

theorem targets (h : e.Same e') : e.targets = e'.targets := by
  rw [Emitted.targets, Emitted.targets, h.ns, h.rule]

theorem entries (h : e.Same e') : e.entries = e'.entries := by
  rw [Emitted.entries, Emitted.entries, h.upName, h.rule]

end Emitted.Same

/-! ## Keys determine entries -/

theorem Entry.eq_of_key_eq {n n' : Entry} (hm : n.method ≠ some []) (hm' : n'.method ≠ some [])
    (h : n.key = n'.key) : n = n' := by
  obtain ⟨kind, pattern, method, upstream⟩ := n
  obtain ⟨kind', pattern', method', upstream'⟩ := n'
  simp only [Entry.key, toLex_inj, Prod.mk.injEq] at h
  obtain ⟨hk, -, rfl, hmeth, rfl⟩ := h
  have hkind : kind = kind' := by
    cases kind <;> cases kind' <;> first | rfl | cases hk
  have hmethod : method = method' := by
    cases method with
    | none =>
      cases method' with
      | none => rfl
      | some m' => exact absurd (congrArg some hmeth.symm) hm'
    | some m =>
      cases method' with
      | none => exact absurd (congrArg some hmeth) hm
      | some m' => exact congrArg some hmeth
  rw [hkind, hmethod]

theorem method_ne_nil {m : HTTPRouteMatch} (h : matchIsValid m) : m.method ≠ some [] := by
  intro hm
  rw [matchIsValid, hm] at h
  simp [isValidMethod] at h

theorem matchIsValid_of_emitted {managed : Lib.OrdMap (Str ×ₗ Str) Gateway} {e : Emitted} (he : e ∈ emitted managed routes) :
    ∀ m ∈ e.rule.effective, matchIsValid m := by
  obtain ⟨_, hv, _, hi, _⟩ := mem_emitted.mp he
  simp only [routeIsValid, Bool.and_eq_true, all_eq_true] at hv
  intro m hm
  rw [HTTPRouteRule.effective] at hm
  split at hm
  · rw [mem_singleton.mp hm]; rfl
  · exact (hv.2 e.rule (mem_of_getElem? hi)).1 m hm

theorem mem_entries_method {managed : Lib.OrdMap (Str ×ₗ Str) Gateway} {e : Emitted} (he : e ∈ emitted managed routes)
    {n : Entry} (hn : n ∈ e.entries) : n.method ≠ some [] := by
  obtain ⟨m, hm, rfl⟩ := mem_map.mp hn
  have hne := method_ne_nil (matchIsValid_of_emitted he m hm)
  intro h
  obtain ⟨m', hm', hup⟩ := Option.map_eq_some_iff.mp h
  rw [hm', map_eq_nil_iff.mp hup] at hne
  exact hne rfl

/-! ## Sets of placements determine the plan -/

section Determined

variable {ps ps' : List Placement}

/-- Each placement of one list is, up to order within its route, in the other. -/
def Within (ps ps' : List Placement) : Prop :=
  ∀ p ∈ ps, ∃ p' ∈ ps', p.toEmitted.Same p'.toEmitted ∧ p.host = p'.host ∧ p.https = p'.https

theorem mem_entries_within (h : Within ps ps') {host : Str} {l : RouteKey × Entry}
    (hl : l ∈ (ps.filter (·.host = host)).flatMap (fun p => p.toEmitted.entries.map (fun n => (n.key, n)))) :
    l ∈ (ps'.filter (·.host = host)).flatMap (fun p => p.toEmitted.entries.map (fun n => (n.key, n))) := by
  simp only [mem_flatMap, mem_filter, decide_eq_true_eq] at hl ⊢
  obtain ⟨p, ⟨hp, rfl⟩, hl⟩ := hl
  obtain ⟨p', hp', hs, hh, _⟩ := h p hp
  exact ⟨p', ⟨hp', hh.symm⟩, hs.entries ▸ hl⟩

theorem any_https_within (h : Within ps ps') {host : Str}
    (ha : ps.any (fun p => p.host = host ∧ p.https)) :
    ps'.any (fun p => p.host = host ∧ p.https) := by
  simp only [any_eq_true, decide_eq_true_eq] at ha ⊢
  obtain ⟨p, hp, rfl, hb⟩ := ha
  obtain ⟨p', hp', _, hh, hb'⟩ := h p hp
  exact ⟨p', hp', hh.symm, hb' ▸ hb⟩

theorem sitePlan_congr (h : Within ps ps') (h' : Within ps' ps)
    (hmethods : ∀ p ∈ ps, ∀ n ∈ p.toEmitted.entries, n.method ≠ some []) (host : Str) :
    sitePlan ps host = sitePlan ps' host := by
  apply SitePlan.ext
  · rw [sitePlan, sitePlan, Bool.eq_iff_iff]
    exact ⟨any_https_within h, any_https_within h'⟩
  · apply Lib.OrdMap.insertAll_empty_congr
    · intro l hl l' hl' hk
      simp only [mem_flatMap, mem_filter, mem_map] at hl hl'
      obtain ⟨p, ⟨hp, _⟩, n, hn, rfl⟩ := hl
      obtain ⟨p', ⟨hp', _⟩, n', hn', rfl⟩ := hl'
      exact Entry.eq_of_key_eq (hmethods p hp n hn) (hmethods p' hp' n' hn') hk
    · exact fun l => ⟨mem_entries_within h, mem_entries_within h'⟩

theorem mem_sites_within (h : Within ps ps') (hsite : ∀ host, sitePlan ps host = sitePlan ps' host)
    {s : Str × SitePlan} (hs : s ∈ ps.map (fun p => (p.host, sitePlan ps p.host))) :
    s ∈ ps'.map (fun p => (p.host, sitePlan ps' p.host)) := by
  obtain ⟨p, hp, rfl⟩ := mem_map.mp hs
  obtain ⟨p', hp', _, hh, _⟩ := h p hp
  exact mem_map.mpr ⟨p', hp', by rw [hsite, hh]⟩

theorem mem_upstreams_within (h : Within ps ps') {u : Str × List Target}
    (hu : u ∈ ps.map (fun p => (p.toEmitted.upName, p.toEmitted.targets))) :
    u ∈ ps'.map (fun p => (p.toEmitted.upName, p.toEmitted.targets)) := by
  obtain ⟨p, hp, rfl⟩ := mem_map.mp hu
  obtain ⟨p', hp', hs, _⟩ := h p hp
  exact mem_map.mpr ⟨p', hp', by rw [hs.upName, hs.targets]⟩

theorem plan_congr (h : Within ps ps') (h' : Within ps' ps)
    (hmethods : ∀ p ∈ ps, ∀ n ∈ p.toEmitted.entries, n.method ≠ some [])
    (hnames : ∀ p ∈ ps, ∀ q ∈ ps, p.toEmitted.upName = q.toEmitted.upName → p.toEmitted = q.toEmitted) :
    plan ps = plan ps' := by
  have hsite := sitePlan_congr h h' hmethods
  apply Plan.ext
  · apply Lib.OrdMap.insertAll_empty_congr
    · intro u hu u' hu' hk
      obtain ⟨p, hp, rfl⟩ := mem_map.mp hu
      obtain ⟨q, hq, rfl⟩ := mem_map.mp hu'
      exact congrArg Emitted.targets (hnames p hp q hq hk)
    · exact fun u => ⟨mem_upstreams_within h, mem_upstreams_within h'⟩
  · apply Lib.OrdMap.insertAll_empty_congr
    · intro s hs s' hs' hk
      obtain ⟨p, -, rfl⟩ := mem_map.mp hs
      obtain ⟨q, -, rfl⟩ := mem_map.mp hs'
      exact congrArg (sitePlan ps) hk
    · exact fun s => ⟨mem_sites_within h hsite, mem_sites_within h' (fun host => (hsite host).symm)⟩

end Determined

end Pulsate.K8s
