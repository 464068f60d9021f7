import Pulsate.Config.Lemmas.Acceptance
import Pulsate.Config.Steps

/-!
# Guards through lowering and building
-/

namespace Pulsate.Conf

open List Lib
open Pulsate.Flow (Ast Step)
open Routing (Mw CacheLayer)

variable {env : Str → Option Str} {ast : Ast} {rt : Flow.Route} {r : Routing.Route} {s : Step}

variable {name : Str} {layer : CacheLayer} {config : Config} {m : Mw}

/-! ## Blocks -/

theorem waf_lower (name : Str) : (lower env ast).1.waf name =
    ((blocks "waf" ast.stmts).find? (fun b => b.name = name)).map lowerWafBlock := by
  rw [Config.waf, lower_wafs, find?_map]
  refine congrArg (Option.map lowerWafBlock) (congrArg (fun p => List.find? p _) (funext (fun b => ?_)))
  show decide ((lowerWafBlock b).name = name) = _
  rw [lowerWafBlock, lowerWaf_name]
  rfl

theorem buildCacheLayers_eq (config : Config) : buildCacheLayers config = (∅ : Lib.OrdMap Str CacheLayer).insertAll
    (config.caches.zipIdx.map (fun p => (p.1.name, ⟨p.2, buildCacheConfig p.1⟩))) := by
  rw [buildCacheLayers, Lib.OrdMap.insertAll, foldl_map]

theorem get?_buildCacheLayers (h : (cacheNames ast).Nodup) :
    (buildCacheLayers (lower env ast).1).get? name = some layer ↔
      ∃ (i : Nat) (b : Block), (blocks "cache" ast.stmts)[i]? = some b ∧ b.name = name ∧ layer = b.layer i := by
  have hname : ∀ b : Block, (lowerCacheBlock b).name = b.name := fun b => lowerCache_name b.keyword b.args b.body
  have hall : buildCacheLayers (lower env ast).1 =
      (∅ : Lib.OrdMap Str CacheLayer).insertAll ((blocks "cache" ast.stmts).zipIdx.map (fun p => (p.1.name, p.1.layer p.2))) := by
    rw [buildCacheLayers_eq, lower_caches, List.zipIdx_map, List.map_map]
    simp only [Function.comp_def, Prod.map, hname]
    rfl
  rw [hall, Lib.OrdMap.get?_insertAll_empty_iff]
  · rw [List.mem_map]
    constructor
    · rintro ⟨⟨b, i⟩, hb, he⟩
      cases he
      exact ⟨i, b, List.mem_zipIdx_iff_getElem?.mp hb, rfl, rfl⟩
    · rintro ⟨i, b, hb, rfl, rfl⟩
      exact ⟨(b, i), List.mem_zipIdx_iff_getElem?.mpr hb, rfl⟩
  · rintro e he e' he' heq
    obtain ⟨⟨b, i⟩, hb, rfl⟩ := List.mem_map.mp he
    obtain ⟨⟨b', j⟩, hb', rfl⟩ := List.mem_map.mp he'
    have hi := List.mem_zipIdx_iff_getElem?.mp hb
    have hj := List.mem_zipIdx_iff_getElem?.mp hb'
    have hget : (cacheNames ast)[i]? = (cacheNames ast)[j]? := by
      rw [cacheNames, List.getElem?_map, List.getElem?_map, hi, hj]
      exact congrArg some heq
    have hlt : i < (cacheNames ast).length := by
      rw [cacheNames, List.length_map]
      exact (List.getElem?_eq_some_iff.mp hi).1
    have hij : i = j := (List.getElem?_inj hlt h).mp hget
    subst hij
    cases hi.symm.trans hj
    rfl

/-! ## Middleware -/

/-- The one element of a lowered guard that is no address list. -/
def guardMw (config : Config) : MwSpec → Option Mw
  | .stripPrefix p => some (.stripPrefix p)
  | .cors origins methods credentials => some (.cors origins methods credentials)
  | .rateLimit count perSecs key => some (.rateLimit ⟨count, perSecs⟩ key)
  | .waf name => (config.waf name).map (fun w => .waf ⟨if w.mode = "detect".toList then .detect else .block⟩)
  | .cache _ => none

theorem filter_buildMw (config : Config) (spec : MwSpec) :
    (buildMw config spec).filter (fun m => !isIp m) = (guardMw config spec).toList := by
  cases spec with
  | waf name =>
    rw [buildMw, guardMw]
    cases config.waf name with
    | none => rfl
    | some w =>
      dsimp only
      cases buildIpAcl w.ipDeny w.ipAllow with
      | none => rfl
      | some acl => rfl
  | stripPrefix p => rfl
  | cors origins methods credentials => rfl
  | rateLimit count perSecs key => rfl
  | cache name => rfl

theorem middleware_builtRoute (h : builtRoute config rt = some r) :
    r.middleware.filter (fun m => !isIp m) = rt.steps.filterMap (fun s => (buildMiddleware s).bind (guardMw config)) := by
  obtain ⟨handler, -, rfl⟩ := Option.map_eq_some_iff.mp h
  rw [filter_flatMap]
  simp only [filter_buildMw, mwSpecs_lowerRoute]
  rw [← filterMap_eq_flatMap_toList, filterMap_filterMap]

theorem corresponds_of_guardMw (h : (buildMiddleware s).bind (guardMw (lower env ast).1) = some m) :
    Corresponds ast s (.mw m) := by
  obtain ⟨spec, hspec, hm⟩ := Option.bind_eq_some_iff.mp h
  have hasks := asks_of_buildMiddleware hspec
  cases spec with
  | stripPrefix p =>
    cases hm
    exact .stripPrefix hasks
  | cors origins methods credentials =>
    cases hm
    exact .cors hasks
  | rateLimit count perSecs key =>
    cases hm
    exact .rateLimit hasks
  | waf name =>
    rw [guardMw, waf_lower, Option.map_map] at hm
    obtain ⟨b, hb, rfl⟩ := Option.map_eq_some_iff.mp hm
    have hname : b.name = name := of_decide_eq_true (find?_some (p := fun b : Block => decide (b.name = name)) hb)
    subst hname
    exact .waf (mem_of_find?_eq_some hb) hasks
  | cache name => cases hm

theorem guardMw_of_corresponds (h : Corresponds ast s (.mw m)) :
    ∃ m, (buildMiddleware s).bind (guardMw (lower env ast).1) = some m := by
  cases h with
  | stripPrefix asks => exact ⟨_, Option.bind_eq_some_iff.mpr ⟨_, buildMiddleware_eq_some.mpr asks, rfl⟩⟩
  | cors asks => exact ⟨_, Option.bind_eq_some_iff.mpr ⟨_, buildMiddleware_eq_some.mpr asks, rfl⟩⟩
  | rateLimit asks => exact ⟨_, Option.bind_eq_some_iff.mpr ⟨_, buildMiddleware_eq_some.mpr asks, rfl⟩⟩
  | waf block asks =>
    rw [buildMiddleware_eq_some.mpr asks, Option.bind_some, guardMw, waf_lower, Option.map_map]
    rename_i b
    have hfound : ((blocks "waf" ast.stmts).find? (fun b' => b'.name = b.name)).isSome :=
      find?_isSome.mpr ⟨b, block, decide_eq_true rfl⟩
    obtain ⟨b', hb'⟩ := Option.isSome_iff_exists.mp hfound
    exact ⟨_, congrArg (Option.map _) hb'⟩

theorem name_ne_cache (h : Corresponds ast s (.mw m)) : s.name.node ∈ protective ∧ s.name.node ≠ "cache" := by
  cases h with
  | stripPrefix asks =>
    cases asks with
    | stripPrefix name arg => rw [name]; decide
  | cors asks =>
    cases asks with
    | cors name arg => rw [name]; decide
  | rateLimit asks =>
    cases asks with
    | rateLimit name arg => rw [name]; decide
  | waf block asks =>
    cases asks with
    | waf name arg => rw [name]; decide

theorem name_eq_cache (h : Corresponds ast s (.cache layer)) : s.name.node = "cache" := by
  cases h with
  | cache block asks =>
    cases asks with
    | cache name arg => exact name

theorem middleware_kept_iff (h : builtRoute (lower env ast).1 rt = some r) :
    List.Forall₂ (fun s m => Corresponds ast s (.mw m)) ((guards rt).filter (fun s => s.name.node ≠ "cache"))
        (r.middleware.filter (fun m => !isIp m)) ↔
      ∀ s ∈ rt.steps, s.name.node ∈ protective → s.name.node ≠ "cache" → ∃ m, Corresponds ast s (.mw m) := by
  rw [middleware_builtRoute h, guards, filter_filter, forall₂_filterMap_iff]
  · simp only [Bool.and_eq_true, decide_eq_true_eq, and_imp]
    constructor
    · intro hkept s hs hp hc
      obtain ⟨m, hm⟩ := hkept s hs hc hp
      exact ⟨m, corresponds_of_guardMw hm⟩
    · intro hkept s hs hc hp
      obtain ⟨m, hm⟩ := hkept s hs hp hc
      exact guardMw_of_corresponds hm
  · intro s hs m hm
    have hcorr := corresponds_of_guardMw hm
    obtain ⟨hp, hc⟩ := name_ne_cache hcorr
    exact ⟨by rw [decide_eq_true hp, decide_eq_true hc]; rfl, hcorr⟩

/-! ## Caches -/

/-- The cache a lowered guard names. -/
def cacheName : MwSpec → Option Str
  | .cache name => some name
  | _ => none

theorem buildCache_eq (layers : Lib.OrdMap Str CacheLayer) (specs : List MwSpec) :
    buildCache layers specs = (specs.filterMap cacheName).getLast?.bind layers.get? := by
  induction specs using List.reverseRecOn with
  | nil => rfl
  | append_singleton specs spec ih =>
    rw [buildCache, foldl_append, filterMap_append]
    cases spec with
    | cache name =>
      show layers.get? name = _
      rw [filterMap_cons_some (f := cacheName) rfl, filterMap_nil, getLast?_concat, Option.bind_some]
    | stripPrefix p => rw [filterMap_cons_none (f := cacheName) rfl, filterMap_nil, append_nil]; exact ih
    | cors o m c => rw [filterMap_cons_none (f := cacheName) rfl, filterMap_nil, append_nil]; exact ih
    | rateLimit c p k => rw [filterMap_cons_none (f := cacheName) rfl, filterMap_nil, append_nil]; exact ih
    | waf n => rw [filterMap_cons_none (f := cacheName) rfl, filterMap_nil, append_nil]; exact ih

/-- The caches a route asks for, in order. -/
def cachesOf (rt : Flow.Route) : List Str := (rt.steps.filterMap buildMiddleware).filterMap cacheName

theorem mem_cachesOf : name ∈ cachesOf rt ↔ ∃ s ∈ rt.steps, Asks s (.cache name) := by
  rw [cachesOf, mem_filterMap]
  constructor
  · rintro ⟨spec, hspec, hname⟩
    obtain ⟨s, hs, hspec⟩ := mem_filterMap.mp hspec
    cases spec <;> cases hname
    exact ⟨s, hs, asks_of_buildMiddleware hspec⟩
  · rintro ⟨s, hs, hasks⟩
    exact ⟨_, mem_filterMap.mpr ⟨s, hs, buildMiddleware_eq_some.mpr hasks⟩, rfl⟩

theorem cache_builtRoute (h : builtRoute config rt = some r) :
    r.cache = (cachesOf rt).getLast?.bind (buildCacheLayers config).get? := by
  obtain ⟨handler, -, rfl⟩ := Option.map_eq_some_iff.mp h
  rw [cachesOf, ← mwSpecs_lowerRoute, ← buildCache_eq]

theorem mem_cacheNames :
    name ∈ cacheNames ast ↔ ∃ (i : Nat) (b : Block), (blocks "cache" ast.stmts)[i]? = some b ∧ b.name = name := by
  rw [cacheNames, mem_map]
  constructor
  · rintro ⟨b, hb, hname⟩
    obtain ⟨i, hi⟩ := mem_iff_getElem?.mp hb
    exact ⟨i, b, hi, hname⟩
  · rintro ⟨i, b, hi, hname⟩
    exact ⟨b, mem_of_getElem? hi, hname⟩

theorem cache_kept_iff (hacc : (cacheNames ast).Nodup) (h : builtRoute (lower env ast).1 rt = some r) :
    (∀ s ∈ rt.steps, ∀ name, Asks s (.cache name) → ∃ layer, r.cache = some layer ∧ Corresponds ast s (.cache layer)) ↔
      ∀ name ∈ cachesOf rt, name ∈ cacheNames ast ∧ ∀ other ∈ cachesOf rt, other = name := by
  have hread : ∀ {s : Step} {name : Str} {layer : CacheLayer}, Asks s (.cache name) → Corresponds ast s (.cache layer) →
      ∃ (i : Nat) (b : Block), (blocks "cache" ast.stmts)[i]? = some b ∧ b.name = name ∧ layer = b.layer i := by
    intro s name layer hasks hcorr
    cases hcorr with
    | cache block asks =>
      cases hasks with
      | cache hname harg =>
        cases asks with
        | cache hname' harg' => exact ⟨_, _, block, Option.some.inj (harg'.symm.trans harg), rfl⟩
  constructor
  · intro hkept name hn
    obtain ⟨s, hs, hasks⟩ := mem_cachesOf.mp hn
    obtain ⟨layer, hlayer, hcorr⟩ := hkept s hs name hasks
    obtain ⟨i, b, hb, hname, rfl⟩ := hread hasks hcorr
    refine ⟨mem_cacheNames.mpr ⟨i, b, hb, hname⟩, fun other ho => ?_⟩
    obtain ⟨t, ht, hasks'⟩ := mem_cachesOf.mp ho
    obtain ⟨layer', hlayer', hcorr'⟩ := hkept t ht other hasks'
    obtain ⟨j, b', hb', hother, rfl⟩ := hread hasks' hcorr'
    -- one layer, so one block
    have hij : i = j := congrArg CacheLayer.store (Option.some.inj (hlayer.symm.trans hlayer'))
    subst hij
    cases hb.symm.trans hb'
    exact hother.symm.trans hname
  · intro hone s hs name hasks
    have hn := mem_cachesOf.mpr ⟨s, hs, hasks⟩
    obtain ⟨hdef, hsame⟩ := hone name hn
    obtain ⟨i, b, hb, rfl⟩ := mem_cacheNames.mp hdef
    refine ⟨b.layer i, ?_, .cache hb hasks⟩
    have hlast : (cachesOf rt).getLast? = some b.name := by
      rw [getLast?_eq_some_getLast (ne_nil_of_mem hn)]
      exact congrArg some (hsame _ (getLast_mem _))
    rw [cache_builtRoute h, hlast, Option.bind_some]
    exact (get?_buildCacheLayers hacc).mpr ⟨i, b, hb, rfl, rfl⟩

/-! ## Guards -/

theorem mem_guards : s ∈ guards rt ↔ s ∈ rt.steps ∧ s.name.node ∈ protective := by
  rw [guards, mem_filter, decide_eq_true_eq]

theorem cache_mem_protective (h : s.name.node = "cache") : s.name.node ∈ protective := by
  rw [h]
  decide

theorem mem_wafNames : name ∈ wafNames ast ↔ ∃ b ∈ blocks "waf" ast.stmts, b.name = name := by
  rw [wafNames, mem_map]

theorem argued_of_corresponds (h : Corresponds ast s (.mw m)) :
    (s.name.node = "strip_prefix" ∧ ∃ path, firstPositional s.args = some (.str path)) ∨
      s.name.node = "cors" ∨
      (s.name.node = "rate_limit" ∧ ∃ count per, firstPositional s.args = some (.rate count per)) ∨
      (s.name.node = "waf" ∧ ∃ name ∈ wafNames ast, firstRef s.args = some name) := by
  cases h with
  | stripPrefix asks =>
    cases asks with
    | stripPrefix name arg => exact .inl ⟨name, _, arg⟩
  | cors asks =>
    cases asks with
    | cors name arg => exact .inr (.inl name)
  | rateLimit asks =>
    cases asks with
    | rateLimit name arg => exact .inr (.inr (.inl ⟨name, _, _, arg⟩))
  | waf block asks =>
    cases asks with
    | waf name arg => exact .inr (.inr (.inr ⟨name, _, mem_wafNames.mpr ⟨_, block, rfl⟩, arg⟩))

theorem corresponds_of_wellArgued (h : WellArgued ast rt) (hs : s ∈ rt.steps) (hp : s.name.node ∈ protective)
    (hc : s.name.node ≠ "cache") : ∃ m, Corresponds ast s (.mw m) := by
  simp only [protective, mem_cons, not_mem_nil, or_false] at hp
  rcases hp with hname | hname | hname | hname | hname
  · obtain ⟨path, harg⟩ := h.stripPrefix s hs hname
    exact ⟨_, .stripPrefix (.stripPrefix hname harg)⟩
  · by_cases hc : namedValue s.args "credentials" = some (.bool true)
    · exact ⟨_, .cors (.cors hname (iff_of_true rfl hc))⟩
    · exact ⟨_, .cors (.cors hname (iff_of_false Bool.false_ne_true hc))⟩
  · obtain ⟨count, per, harg⟩ := h.rateLimit s hs hname
    exact ⟨_, .rateLimit (.rateLimit hname harg)⟩
  · obtain ⟨name, hdef, harg⟩ := h.waf s hs hname
    obtain ⟨b, hb, rfl⟩ := mem_wafNames.mp hdef
    exact ⟨_, .waf hb (.waf hname harg)⟩
  · exact absurd hname hc

theorem wellArgued_of_kept (hacc : (cacheNames ast).Nodup) (hr : builtRoute (lower env ast).1 rt = some r)
    (h : Kept ast rt r) : WellArgued ast rt := by
  have hmw : ∀ s ∈ rt.steps, s.name.node ∈ protective → s.name.node ≠ "cache" → _ :=
    fun s hs hp hc => argued_of_corresponds ((middleware_kept_iff hr).mp h.middleware s hs hp hc).choose_spec
  have hasks : ∀ s ∈ rt.steps, s.name.node = "cache" → ∃ name ∈ cachesOf rt, firstRef s.args = some name := by
    intro s hs hname
    obtain ⟨layer, -, hcorr⟩ := h.cache s (mem_guards.mpr ⟨hs, cache_mem_protective hname⟩) hname
    cases hcorr with
    | cache block asks =>
      refine ⟨_, mem_cachesOf.mpr ⟨s, hs, asks⟩, ?_⟩
      cases asks with
      | cache name arg => exact arg
  have hone := (cache_kept_iff hacc hr).mp (fun s hs name hasks => by
    cases hasks with
    | cache hname harg => exact h.cache s (mem_guards.mpr ⟨hs, cache_mem_protective hname⟩) hname)
  constructor
  · intro s hs hname
    rcases hmw s hs (by rw [hname]; decide) (by rw [hname]; decide) with ⟨-, harg⟩ | h | ⟨h, -⟩ | ⟨h, -⟩
    · exact harg
    all_goals exact absurd (hname.symm.trans h) (by decide)
  · intro s hs hname
    rcases hmw s hs (by rw [hname]; decide) (by rw [hname]; decide) with ⟨h, -⟩ | h | ⟨-, harg⟩ | ⟨h, -⟩
    rotate_left 2
    · exact harg
    all_goals exact absurd (hname.symm.trans h) (by decide)
  · intro s hs hname
    rcases hmw s hs (by rw [hname]; decide) (by rw [hname]; decide) with ⟨h, -⟩ | h | ⟨h, -⟩ | ⟨-, harg⟩
    rotate_left 3
    · exact harg
    all_goals exact absurd (hname.symm.trans h) (by decide)
  · intro s hs hname
    obtain ⟨name, hn, harg⟩ := hasks s hs hname
    exact ⟨name, (hone name hn).1, harg⟩
  · intro s hs t ht hs' ht'
    obtain ⟨name, hn, harg⟩ := hasks s hs hs'
    obtain ⟨name', hn', harg'⟩ := hasks t ht ht'
    rw [harg, harg', (hone name hn).2 name' hn']

theorem kept_of_wellArgued (hacc : (cacheNames ast).Nodup) (hr : builtRoute (lower env ast).1 rt = some r)
    (h : WellArgued ast rt) : Kept ast rt r := by
  refine ⟨(middleware_kept_iff hr).mpr (fun s hs hp hc => corresponds_of_wellArgued h hs hp hc), fun s hs hname => ?_⟩
  obtain ⟨hs, -⟩ := mem_guards.mp hs
  obtain ⟨name, hdef, harg⟩ := h.cache s hs hname
  refine (cache_kept_iff hacc hr).mpr (fun other ho => ?_) s hs name (.cache hname harg)
  obtain ⟨t, ht, hasks⟩ := mem_cachesOf.mp ho
  have hsame : ∀ other ∈ cachesOf rt, other = name := by
    intro other ho
    obtain ⟨t, ht, hasks⟩ := mem_cachesOf.mp ho
    cases hasks with
    | cache hname' harg' => exact Option.some.inj (harg'.symm.trans ((h.oneCache t ht s hs hname' hname).trans harg))
  obtain rfl := hsame other ho
  exact ⟨hdef, hsame⟩

theorem kept_iff (hacc : (cacheNames ast).Nodup) (hr : builtRoute (lower env ast).1 rt = some r) :
    Kept ast rt r ↔ WellArgued ast rt :=
  ⟨wellArgued_of_kept hacc hr, kept_of_wellArgued hacc hr⟩

/-! ## Order -/

/-- A route has a cache only if one of its steps asks for it. -/
theorem exists_cache_step (hr : builtRoute config rt = some r) (h : r.cache = some layer) :
    ∃ s ∈ guards rt, s.name.node = "cache" := by
  rw [cache_builtRoute hr] at h
  obtain ⟨name, hlast, -⟩ := Option.bind_eq_some_iff.mp h
  obtain ⟨s, hs, hasks⟩ := mem_cachesOf.mp (mem_of_getLast? hlast)
  cases hasks with
  | cache hname harg => exact ⟨s, mem_guards.mpr ⟨hs, cache_mem_protective hname⟩, hname⟩

theorem kept_of_keptInOrder (h : KeptInOrder ast rt r) :
    Kept ast rt r ∧ ∀ s ∈ (guards rt).dropLast, s.name.node ≠ "cache" := by
  let M := (r.middleware.filter (fun m => !isIp m)).map Element.mw
  let C := r.cache.toList.map Element.cache
  have hM : List.Forall₂ (Corresponds ast) ((guards rt).take M.length) M := forall₂_take_append _ _ _ h
  have hC : List.Forall₂ (Corresponds ast) ((guards rt).drop M.length) C := forall₂_drop_append _ _ _ h
  have hsplit : guards rt = (guards rt).take M.length ++ (guards rt).drop M.length := (take_append_drop _ _).symm
  generalize (guards rt).take M.length = G₁ at hM hsplit
  generalize (guards rt).drop M.length = G₂ at hC hsplit
  rw [forall₂_map_right_iff] at hM hC
  have hG₁ : ∀ s ∈ G₁, s.name.node ≠ "cache" := by
    intro s hs
    obtain ⟨m, -, hcorr⟩ := exists_right_of_forall₂ hM hs
    exact (name_ne_cache hcorr).2
  have hG₂ : ∀ s ∈ G₂, s.name.node = "cache" := by
    intro s hs
    obtain ⟨layer, -, hcorr⟩ := exists_right_of_forall₂ hC hs
    exact name_eq_cache hcorr
  refine ⟨⟨?_, ?_⟩, ?_⟩
  · rw [hsplit, filter_append, filter_eq_self.mpr (fun s hs => decide_eq_true (hG₁ s hs)),
      filter_eq_nil_iff.mpr (fun s hs => by simp [hG₂ s hs]), append_nil]
    exact hM
  · intro s hs hname
    rw [hsplit] at hs
    rcases mem_append.mp hs with hs | hs
    · exact absurd hname (hG₁ s hs)
    · obtain ⟨layer, hlayer, hcorr⟩ := exists_right_of_forall₂ hC hs
      exact ⟨layer, Option.mem_toList.mp hlayer, hcorr⟩
  · -- there is at most one cache, and it is last
    rw [hsplit]
    cases hG : G₂ with
    | nil =>
      rw [append_nil]
      exact fun s hs => hG₁ s (mem_of_mem_dropLast hs)
    | cons c rest =>
      have hlen := hC.length_eq
      rw [hG, length_cons] at hlen
      have hle : r.cache.toList.length ≤ 1 := by cases r.cache <;> simp
      obtain rfl : rest = [] := eq_nil_of_length_eq_zero (by omega)
      rw [dropLast_concat]
      exact hG₁

theorem keptInOrder_of_kept (hr : builtRoute config rt = some r) (h : Kept ast rt r)
    (hlast : ∀ s ∈ (guards rt).dropLast, s.name.node ≠ "cache") : KeptInOrder ast rt r := by
  rw [KeptInOrder, elements]
  cases hcache : r.cache with
  | none =>
    have hnone : ∀ s ∈ guards rt, s.name.node ≠ "cache" := by
      intro s hs hname
      obtain ⟨layer, hlayer, -⟩ := h.cache s hs hname
      cases hcache.symm.trans hlayer
    have hmw := h.middleware
    rw [filter_eq_self.mpr (fun s hs => decide_eq_true (hnone s hs))] at hmw
    rw [Option.toList_none, map_nil, append_nil, forall₂_map_right_iff]
    exact hmw
  | some layer =>
    obtain ⟨s, hs, hname⟩ := exists_cache_step hr hcache
    have hne := ne_nil_of_mem hs
    have hsplit := dropLast_append_getLast hne
    -- the step that asks for the cache is the last guard
    have hs_last : s = (guards rt).getLast hne := by
      rw [← hsplit] at hs
      rcases mem_append.mp hs with hs | hs
      · exact absurd hname (hlast s hs)
      · exact mem_singleton.mp hs
    obtain ⟨layer', hlayer, hcorr⟩ := h.cache s hs hname
    cases hcache.symm.trans hlayer
    have hmw := h.middleware
    rw [← hsplit, filter_append, filter_eq_self.mpr (fun s hs => decide_eq_true (hlast s hs)), ← hs_last,
      filter_cons_of_neg (by simp [hname]), filter_nil, append_nil] at hmw
    rw [← hsplit]
    refine rel_append (forall₂_map_right_iff.mpr hmw) (.cons ?_ .nil)
    rw [← hs_last]
    exact hcorr

/-! ## Accepted texts -/

theorem middleware_of_compile {text : Str} {g : Nat} {compiled : Compiled} {site : Routing.SiteRoutes} {mw : Mw}
    (h : compile env text g = .ok compiled) (hsite : site ∈ (buildRouter compiled.config).sites) (hr : r ∈ site.routes)
    (hmw : mw ∈ r.middleware) :
    (∀ set remove, mw ≠ .headers set remove) ∧ ∀ origins methods, mw = .cors origins methods true → ['*'] ∉ origins := by
  obtain ⟨ast, -, rfl, hacc⟩ := acceptable_of_compile h
  obtain ⟨rt, hrt, hbuilt⟩ := mem_buildRouter.mp ⟨site, hsite, hr⟩
  obtain ⟨handler, -, rfl⟩ := Option.map_eq_some_iff.mp hbuilt
  obtain ⟨spec, hspec, hmw⟩ := mem_flatMap.mp hmw
  rw [mwSpecs_lowerRoute] at hspec
  have hcors : checkCors (lowerRoute rt).1 spec = [] := checkCors_eq_nil.mpr (hacc.cors rt hrt) spec hspec
  cases spec with
  | stripPrefix path =>
    obtain rfl := mem_singleton.mp hmw
    exact ⟨by rintro set remove ⟨⟩, by rintro o m ⟨⟩⟩
  | cors origins methods credentials =>
    obtain rfl := mem_singleton.mp hmw
    refine ⟨by rintro set remove ⟨⟩, fun o m heq hstar => ?_⟩
    cases heq
    rw [checkCors, if_pos ⟨rfl, contains_iff_mem.mpr hstar⟩] at hcors
    cases hcors
  | rateLimit count perSecs key =>
    obtain rfl := mem_singleton.mp hmw
    exact ⟨by rintro set remove ⟨⟩, by rintro o m ⟨⟩⟩
  | waf name =>
    rw [buildMw] at hmw
    cases hwaf : (lower env ast).1.waf name with
    | none =>
      rw [hwaf] at hmw
      exact absurd hmw not_mem_nil
    | some waf =>
      rw [hwaf] at hmw
      simp only [mem_append, Option.mem_toList, Option.map_eq_some_iff, mem_singleton] at hmw
      rcases hmw with ⟨acl, -, rfl⟩ | rfl
      · exact ⟨by rintro set remove ⟨⟩, by rintro o m ⟨⟩⟩
      · exact ⟨by rintro set remove ⟨⟩, by rintro o m ⟨⟩⟩
  | cache name => exact absurd hmw not_mem_nil

/-! ## What a configuration is built into -/

theorem nanos_fromSecs_le {n bound : Nat} (h : n ≤ bound) : (Duration.fromSecs (UInt64.ofNat n)).nanos ≤ bound * 10 ^ 9 := by
  have hle : (UInt64.ofNat n).toNat ≤ n := by
    rw [UInt64.toNat_ofNat']
    exact Nat.mod_le _ _
  exact Nat.mul_le_mul_right _ (hle.trans h)

theorem buildUpstreams_eq (config : Config) : buildUpstreams config =
    (∅ : Proxy.Registry).insertAll (config.upstreams.map (fun u => (u.name, buildUpstream u))) := by
  rw [buildUpstreams, Lib.OrdMap.insertAll, foldl_map]
  rfl

theorem exists_of_pool {up : Proxy.Upstream} (h : (buildUpstreams config).get? name = some up) :
    ∃ u ∈ config.upstreams, up = buildUpstream u := by
  rw [buildUpstreams_eq] at h
  obtain ⟨u, hu, he⟩ := mem_map.mp (Lib.OrdMap.mem_of_mem_insertAll_empty (Lib.OrdMap.mem_entries_iff.mpr h))
  cases he
  exact ⟨u, hu, rfl⟩

theorem exists_of_layer {specs : List MwSpec} (h : buildCache (buildCacheLayers config) specs = some layer) :
    ∃ c ∈ config.caches, layer.config = buildCacheConfig c := by
  rw [buildCache_eq] at h
  obtain ⟨name, -, h⟩ := Option.bind_eq_some_iff.mp h
  rw [buildCacheLayers_eq] at h
  obtain ⟨⟨c, i⟩, hc, he⟩ := mem_map.mp (Lib.OrdMap.mem_of_mem_insertAll_empty (Lib.OrdMap.mem_entries_iff.mpr h))
  cases he
  exact ⟨c, fst_mem_of_mem_zipIdx hc, rfl⟩

end Pulsate.Conf
