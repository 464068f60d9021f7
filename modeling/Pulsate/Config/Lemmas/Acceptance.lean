import Pulsate.Config.Lemmas.Written

/-!
# The verdict of the compiler

Every diagnostic is an error, so a text is accepted exactly if lowering and validation find nothing; each check finds
nothing exactly if its rule is kept.
-/

namespace Pulsate.Conf

open List
open Pulsate.Flow (Ast Diagnostic Span Stmt Value)

variable {env : Str → Option Str}

variable {args : List Flow.Arg} {text : Str} {compiled : Compiled} {s : Flow.Step}

/-! ## Severities -/

def AllErrors (ds : List Diagnostic) : Prop := ∀ d ∈ ds, d.severity = .error

theorem AllErrors.nil : AllErrors [] := fun _ hd => absurd hd not_mem_nil

theorem AllErrors.single {d : Diagnostic} (h : d.severity = .error) : AllErrors [d] := by
  intro d' hd
  rw [mem_singleton.mp hd]
  exact h

theorem AllErrors.append {ds es : List Diagnostic} (hd : AllErrors ds) (he : AllErrors es) : AllErrors (ds ++ es) := by
  intro d h
  rcases mem_append.mp h with h | h
  · exact hd d h
  · exact he d h

theorem AllErrors.flatMap {α : Type} {l : List α} {f : α → List Diagnostic} (h : ∀ a ∈ l, AllErrors (f a)) :
    AllErrors (l.flatMap f) := by
  intro d hd
  obtain ⟨a, ha, hd⟩ := mem_flatMap.mp hd
  exact h a ha d hd

theorem allErrors_terminalIdx (rt : Flow.Route) : AllErrors (terminalIdx rt).2 := by
  unfold terminalIdx
  dsimp only
  split
  · exact .nil
  · split
    · exact .nil
    · exact .single rfl
  · exact .single rfl

theorem stmtDiags_block {kw : Flow.Spanned Str} {body : List Stmt} {span : Span} (hs : kw.node ≠ "site") :
    stmtDiags env (.block kw args body span) = [] := by
  simp only [stmtDiags, lowerStmt, if_neg hs]
  split_ifs <;> rfl

theorem stmtDiags_site {kw : Flow.Spanned Str} {body : List Stmt} {span : Span} (hs : kw.node = "site") :
    stmtDiags env (.block kw args body span) = (routesIn body).flatMap (fun rt => (terminalIdx rt).2) := by
  rw [stmtDiags, lowerStmt_site hs, nil_append, lowerSite_diags]
  rfl

theorem allErrors_stmtDiags (s : Stmt) : AllErrors (stmtDiags env s) := by
  cases s with
  | block kw args body span =>
    by_cases hs : kw.node = "site"
    · rw [stmtDiags_site hs]
      exact .flatMap (fun rt _ => allErrors_terminalIdx rt)
    · rw [stmtDiags_block hs]
      exact .nil
  | directive d =>
    unfold stmtDiags lowerStmt
    dsimp only
    split
    · cases firstPositionalStr d.args with
      | none => exact .nil
      | some v =>
        dsimp only
        split
        · exact .nil
        · exact .single rfl
    · exact .nil
  | route r => exact .nil

theorem AllErrors.map {α : Type} {l : List α} {f : α → Diagnostic} (h : ∀ a, (f a).severity = .error) : AllErrors (l.map f) := by
  intro d hd
  obtain ⟨a, -, rfl⟩ := mem_map.mp hd
  exact h a

theorem allErrors_checkDupNames (kind : Str) (seen : List Str) (l : List (Str × Span)) :
    AllErrors (checkDupNames kind seen l) := by
  rw [checkDupNames_eq]
  exact .map (fun _ => rfl)

theorem allErrors_checkHostCollisions (seen : List Str) (hosts : List Host) :
    AllErrors (checkHostCollisions seen hosts) := by
  rw [checkHostCollisions_eq]
  exact .map (fun _ => rfl)

theorem allErrors_checkRef (defined : List Str) (r : RefUse) : AllErrors (checkRef defined r) := by
  unfold checkRef
  split
  · exact .nil
  · dsimp only
    split
    · exact .single rfl
    · exact .single rfl

theorem allErrors_checkCors (route : RouteDef) (mw : MwSpec) : AllErrors (checkCors route mw) := by
  unfold checkCors
  split
  · split
    · exact .single rfl
    · exact .nil
  · exact .nil

theorem allErrors_validate (config : Config) : AllErrors (validate config) := by
  unfold validate
  refine .append (.append (.append (.append (.append (.append ?_ ?_) ?_) ?_) ?_) ?_) ?_
  · exact allErrors_checkDupNames _ _ _
  · exact allErrors_checkDupNames _ _ _
  · exact allErrors_checkDupNames _ _ _
  · exact allErrors_checkDupNames _ _ _
  · exact .flatMap (fun route _ => .flatMap (fun r _ => allErrors_checkRef _ r))
  · exact .flatMap (fun route _ => .flatMap (fun mw _ => allErrors_checkCors route mw))
  · exact allErrors_checkHostCollisions _ _

/-! ## The verdict -/

/-- Everything lowering and validation find. -/
def findings (env : Str → Option Str) (ast : Ast) : List Diagnostic :=
  (lower env ast).2 ++ validate (lower env ast).1

theorem allErrors_findings (ast : Ast) : AllErrors (findings env ast) := by
  refine AllErrors.append ?_ (allErrors_validate _)
  rw [lower_diags]
  exact .flatMap (fun s _ => allErrors_stmtDiags s)

theorem compile_of_parse {ast : Ast} (g : Nat) (h : Flow.parse text = .ok ast) :
    compile env text g =
      if findings env ast = [] then .ok ⟨(lower env ast).1, g, []⟩ else .error (.diags (findings env ast)) := by
  have herrors : (findings env ast).filter (fun d => d.severity = .error) = findings env ast :=
    filter_eq_self.mpr (fun d hd => decide_eq_true (allErrors_findings ast d hd))
  have hwarnings : (findings env ast).filter (fun d => d.severity ≠ .error) = [] :=
    filter_eq_nil_iff.mpr (fun d hd => by simp [allErrors_findings ast d hd])
  rw [compile, h]
  show (if (findings env ast).filter (fun d => d.severity = .error) ≠ [] then
      Except.error (CompileError.diags ((findings env ast).filter (fun d => d.severity = .error)))
    else .ok (Compiled.mk (lower env ast).1 g ((findings env ast).filter (fun d => d.severity ≠ .error)))) = _
  rw [herrors, hwarnings, ite_not]

theorem compile_inv {g : Nat} (h : compile env text g = .ok compiled) :
    ∃ ast, Flow.parse text = .ok ast ∧ compiled = ⟨(lower env ast).1, g, []⟩ ∧ findings env ast = [] := by
  cases hp : Flow.parse text with
  | error e =>
    rw [compile, hp] at h
    cases e <;> cases h
  | ok ast =>
    rw [compile_of_parse g hp] at h
    split at h
    · cases h
      exact ⟨ast, rfl, rfl, by assumption⟩
    · cases h

/-! ## Handlers -/

section Routes

variable {rt : Flow.Route}

theorem map_fst_filter_zipIdx {α : Type} (l : List α) (p : α → Bool) :
    (l.zipIdx.filter (fun x => p x.1)).map Prod.fst = l.filter p := by
  have h := filter_map (f := Prod.fst) (p := p) (l := l.zipIdx)
  rw [zipIdx_map_fst] at h
  exact h.symm

theorem handler_of_mem_zipIdx {i : Nat}
    (h : i ∈ (rt.steps.zipIdx.filter (fun p => handlers.contains p.1.name.node)).map (·.2)) :
    ∃ s, rt.steps[i]? = some s ∧ s.name.node ∈ handlers := by
  obtain ⟨⟨s, j⟩, hs, rfl⟩ := mem_map.mp h
  obtain ⟨hs, hc⟩ := mem_filter.mp hs
  exact ⟨s, mem_zipIdx_iff_getElem?.mp hs, contains_iff_mem.mp hc⟩

/-- Where a route ends. It ends nowhere, or several times, exactly if there is a diagnostic. -/
theorem terminalIdx_cases (rt : Flow.Route) :
    (EndsOnce rt ∧ ∃ i s, terminalIdx rt = (some i, []) ∧ rt.steps[i]? = some s ∧
      (s.name.node ∈ handlers ∨ "plugin.".toList <+: s.name.node ∧ ∀ s ∈ rt.steps, s.name.node ∉ handlers)) ∨
    (¬ EndsOnce rt ∧ (terminalIdx rt).2 ≠ [] ∧
      ∀ i, (terminalIdx rt).1 = some i → ∃ s, rt.steps[i]? = some s ∧ s.name.node ∈ handlers) := by
  have hmem : ∀ s : Flow.Step, handlers.contains s.name.node = decide (s.name.node ∈ handlers) :=
    fun s => Bool.eq_iff_iff.mpr (by rw [contains_iff_mem, decide_eq_true_eq])
  have hlen : (rt.steps.filter (fun s => s.name.node ∈ handlers)).length =
      ((rt.steps.zipIdx.filter (fun p => handlers.contains p.1.name.node)).map (·.2)).length := by
    rw [length_map, ← map_fst_filter_zipIdx rt.steps, length_map]
    simp only [hmem]
  unfold EndsOnce
  rw [hlen]
  unfold terminalIdx
  dsimp only
  split
  · rename_i i hi
    obtain ⟨s, hs, hh⟩ := handler_of_mem_zipIdx (i := i) (by rw [hi]; exact mem_cons_self)
    rw [hi]
    exact .inl ⟨.inl rfl, i, s, rfl, hs, .inl hh⟩
  · rename_i hi
    have hnone : ∀ s ∈ rt.steps, s.name.node ∉ handlers := by
      rw [hi, length_nil, length_eq_zero_iff, filter_eq_nil_iff] at hlen
      simpa using hlen
    have hplugin : rt.steps.getLast?.any (fun s => "plugin.".toList.isPrefixOf s.name.node) ↔
        ∃ s, rt.steps.getLast? = some s ∧ "plugin.".toList <+: s.name.node := by
      rw [Option.any_eq_true]
      exact exists_congr (fun s => and_congr_right (fun _ => isPrefixOf_iff_prefix))
    rw [hi, length_nil]
    split
    · rename_i h
      obtain ⟨s, hlast, hp⟩ := hplugin.mp h
      refine .inl ⟨.inr ⟨hnone, s, hlast, hp⟩, _, s, rfl, ?_, .inr ⟨hp, hnone⟩⟩
      rwa [getLast?_eq_getElem?] at hlast
    · rename_i h
      refine .inr ⟨?_, cons_ne_nil _ _, fun i hi => by cases hi⟩
      rintro (hone | ⟨-, hlast⟩)
      · cases hone
      · exact h (hplugin.mpr hlast)
  · rename_i i j rest hi
    obtain ⟨s, hs, hh⟩ := handler_of_mem_zipIdx (i := i) (by rw [hi]; exact mem_cons_self)
    rw [hi]
    refine .inr ⟨?_, cons_ne_nil _ _, fun k hk => ?_⟩
    · rintro (hone | ⟨hnone, -⟩)
      · simp at hone
      · exact hnone s (mem_of_getElem? hs) hh
    · cases hk
      exact ⟨s, hs, hh⟩

theorem terminalIdx_diags_eq_nil : (terminalIdx rt).2 = [] ↔ EndsOnce rt := by
  rcases terminalIdx_cases rt with ⟨hends, i, s, hi, -⟩ | ⟨hends, hdiags, -⟩
  · exact iff_of_true (congrArg Prod.snd hi) hends
  · exact iff_of_false hdiags hends

theorem exists_terminal (h : EndsOnce rt) : ∃ i s, (terminalIdx rt).1 = some i ∧ rt.steps[i]? = some s := by
  rcases terminalIdx_cases rt with ⟨-, i, s, hi, hs, -⟩ | ⟨hends, -⟩
  · exact ⟨i, s, congrArg Prod.fst hi, hs⟩
  · exact absurd h hends

theorem terminalIdx_of_handler (h : EndsOnce rt) (hs : s ∈ rt.steps) (hn : s.name.node ∈ handlers) :
    ∃ i, (terminalIdx rt).1 = some i ∧ rt.steps[i]? = some s := by
  rcases terminalIdx_cases rt with ⟨-, i, s', hi, hs', hh | ⟨-, hnone⟩⟩ | ⟨hends, -⟩
  · have hone : (rt.steps.filter (fun s => s.name.node ∈ handlers)).length = 1 :=
      h.resolve_right (fun hnone => hnone.1 s hs hn)
    obtain ⟨t, ht⟩ := length_eq_one_iff.mp hone
    have heq : ∀ u ∈ rt.steps, u.name.node ∈ handlers → u = t := fun u hu hun =>
      mem_singleton.mp (ht ▸ mem_filter.mpr ⟨hu, decide_eq_true hun⟩)
    rw [heq s hs hn, ← heq s' (mem_of_getElem? hs') hh]
    exact ⟨i, congrArg Prod.fst hi, hs'⟩
  · exact absurd hn (hnone s hs)
  · exact absurd h hends

theorem handler_builtRoute {config : Config} {r : Routing.Route} (h : builtRoute config rt = some r) :
    ∃ i s, (terminalIdx rt).1 = some i ∧ rt.steps[i]? = some s ∧ r.handler = buildHandler s := by
  obtain ⟨handler, hhandler, rfl⟩ := Option.map_eq_some_iff.mp h
  obtain ⟨s, hs, rfl⟩ := Option.map_eq_some_iff.mp hhandler
  obtain ⟨i, hi, hs⟩ := Option.bind_eq_some_iff.mp hs
  exact ⟨i, s, hi, hs, rfl⟩

theorem exists_builtRoute (config : Config) (h : EndsOnce rt) : ∃ r, builtRoute config rt = some r := by
  obtain ⟨i, s, hi, hs⟩ := exists_terminal h
  have hhandler : (lowerRoute rt).1.handler = some (buildHandler s) := by
    show ((terminalIdx rt).1.bind (rt.steps[·]?)).map buildHandler = _
    rw [hi, Option.bind_some, hs, Option.map_some]
  rw [builtRoute, buildRoute, hhandler]
  exact ⟨_, rfl⟩

theorem terminalIdx_name {i : Nat} (hi : (terminalIdx rt).1 = some i) (hs : rt.steps[i]? = some s) :
    s.name.node ∈ handlers ∨ "plugin." <+: s.name.node := by
  rcases terminalIdx_cases rt with ⟨-, j, s', hj, hs', hname⟩ | ⟨-, -, hhandler⟩
  · rw [hj] at hi
    cases hi
    cases hs'.symm.trans hs
    exact hname.imp_right And.left
  · obtain ⟨s', hs', hh⟩ := hhandler i hi
    cases hs'.symm.trans hs
    exact .inl hh

theorem buildMiddleware_none (h : s.name.node ∉ protective) : buildMiddleware s = none := by
  simp only [protective, mem_cons, not_mem_nil, or_false, not_or] at h
  obtain ⟨h1, h2, h3, h4, h5⟩ := h
  rw [buildMiddleware, if_neg h1, if_neg h2, if_neg h3, if_neg h4, if_neg h5]

theorem not_protective_of_terminal {name : Str} (h : name ∈ handlers ∨ "plugin." <+: name) :
    name ∉ protective := by
  rcases h with h | h
  · revert name
    decide
  · obtain ⟨rest, rfl⟩ := h
    simp only [protective, mem_cons, not_mem_nil, or_false, not_or]
    refine ⟨?_, ?_, ?_, ?_, ?_⟩ <;> intro h <;> cases congrArg List.head? h

theorem mwSpecs_lowerRoute (rt : Flow.Route) : (lowerRoute rt).1.mwSpecs = rt.steps.filterMap buildMiddleware := by
  show ((rt.steps.zipIdx.filter (fun p => some p.2 ≠ (terminalIdx rt).1)).map (·.1)).filterMap buildMiddleware = _
  conv_rhs => rw [← zipIdx_map_fst 0 rt.steps, filterMap_map]
  rw [filterMap_map, filterMap_filter]
  refine filterMap_congr (fun p hp => ?_)
  split
  · rfl
  · rename_i hterm
    rw [decide_eq_true_eq, not_not] at hterm
    have hs := mem_zipIdx_iff_getElem?.mp hp
    exact (buildMiddleware_none (not_protective_of_terminal (terminalIdx_name hterm.symm hs))).symm

end Routes

/-! ## References -/

section References

variable {name : Str}

mutual

theorem exists_ref_iff (span : Span) : (v : Value) → ((∃ r ∈ collectRefsValue span v, r.name = name) ↔ Refers name v)
  | .ref n => by
    constructor
    · rintro ⟨r, hr, rfl⟩
      rw [mem_singleton.mp hr]
      exact .here
    · rintro ⟨⟩
      exact ⟨_, mem_singleton_self _, rfl⟩
  | .array items => by
    rw [collectRefsValue, exists_ref_items_iff items]
    constructor
    · rintro ⟨i, hi, h⟩
      exact .item hi h
    · rintro ⟨⟩
      rename_i i h hi
      exact ⟨i, hi, h⟩
  | .str _ | .int _ | .float _ | .bool _ | .duration _ | .size _ | .rate _ _ | .secret _ | .env _ _ => by
    constructor
    · rintro ⟨r, hr, -⟩
      cases hr
    · rintro ⟨⟩

theorem exists_ref_items_iff : (items : List (Flow.Spanned Value)) →
    ((∃ r ∈ collectRefsValue.collectItems items, r.name = name) ↔ ∃ i ∈ items, Refers name i.node)
  | [] => by
    constructor
    · rintro ⟨r, hr, -⟩
      cases hr
    · rintro ⟨i, hi, -⟩
      cases hi
  | ⟨node, span⟩ :: rest => by
    simp only [collectRefsValue.collectItems, mem_append, or_and_right, exists_or, mem_cons,
      exists_eq_left, exists_ref_iff span node, exists_ref_items_iff rest]

end

theorem mentions_iff : (∃ r ∈ collectRefs s.args, r.name = name) ↔ Mentions name s := by
  constructor
  · rintro ⟨r, hr, hn⟩
    obtain ⟨a, ha, hr⟩ := mem_flatMap.mp hr
    exact ⟨a, ha, (exists_ref_iff _ _).mp ⟨r, hr, hn⟩⟩
  · rintro ⟨a, ha, h⟩
    obtain ⟨r, hr, hn⟩ := (exists_ref_iff (argValue a).span _).mpr h
    exact ⟨r, mem_flatMap.mpr ⟨a, ha, hr⟩, hn⟩

theorem checkRef_eq_nil {defined : List Str} {r : RefUse} : checkRef defined r = [] ↔ r.name ∈ defined := by
  unfold checkRef
  split
  · rename_i h
    exact iff_of_true rfl (contains_iff_mem.mp h)
  · rename_i h
    refine iff_of_false ?_ (fun hm => h (contains_iff_mem.mpr hm))
    dsimp only
    split <;> exact cons_ne_nil _ _

end References

/-! ## Guards -/

theorem firstPositionalStr_eq_some {v : Str} : firstPositionalStr args = some v ↔ firstPositional args = some (.str v) := by
  rw [firstPositionalStr, Option.bind_eq_some_iff]
  constructor
  · rintro ⟨w, hw, hv⟩
    cases w <;> cases hv
    exact hw
  · exact fun h => ⟨_, h, rfl⟩

theorem asks_of_buildMiddleware {spec : MwSpec} (h : buildMiddleware s = some spec) : Asks s spec := by
  unfold buildMiddleware at h
  split at h
  · rename_i hname
    obtain ⟨path, hpath, rfl⟩ := Option.map_eq_some_iff.mp h
    exact .stripPrefix hname (firstPositionalStr_eq_some.mp hpath)
  split at h
  · rename_i hname
    cases h
    refine .cors hname ?_
    split
    · rename_i b hb
      rw [hb, Option.some.injEq, Value.bool.injEq]
    · rename_i hb
      exact iff_of_false Bool.false_ne_true (fun h => hb true h)
  split at h
  · rename_i hname
    split at h
    · rename_i harg
      cases h
      exact .rateLimit hname harg
    · cases h
  split at h
  · rename_i hname
    obtain ⟨name, hn, rfl⟩ := Option.map_eq_some_iff.mp h
    exact .waf hname hn
  split at h
  · rename_i hname
    obtain ⟨name, hn, rfl⟩ := Option.map_eq_some_iff.mp h
    exact .cache hname hn
  · cases h

theorem buildMiddleware_eq_some {spec : MwSpec} : buildMiddleware s = some spec ↔ Asks s spec := by
  refine ⟨asks_of_buildMiddleware, fun h => ?_⟩
  cases h with
  | stripPrefix name arg => simp [buildMiddleware, name, firstPositionalStr_eq_some.mpr arg]
  | cors name arg =>
    have h1 : s.name.node ≠ "strip_prefix" := by rw [name]; decide
    rw [buildMiddleware, if_neg h1, if_pos name]
    refine congrArg (fun c => some (MwSpec.cors _ _ c)) (Bool.eq_iff_iff.mpr ?_)
    rw [arg]
    split
    · rename_i b hb
      rw [hb, Option.some.injEq, Value.bool.injEq]
    · rename_i hb
      exact iff_of_false Bool.false_ne_true (fun h => hb true h)
  | rateLimit name arg => simp [buildMiddleware, name, arg]
  | waf name arg => simp [buildMiddleware, name, arg]
  | cache name arg => simp [buildMiddleware, name, arg]

theorem Asks.unique {spec spec' : MwSpec} (h : Asks s spec) (h' : Asks s spec') : spec = spec' :=
  Option.some.inj ((buildMiddleware_eq_some.mpr h).symm.trans (buildMiddleware_eq_some.mpr h'))

theorem checkCors_eq_nil {route : RouteDef} {steps : List Flow.Step} :
    (∀ mw ∈ steps.filterMap buildMiddleware, checkCors route mw = []) ↔ ∀ s ∈ steps, ¬ OpenCors s := by
  constructor
  · rintro h s hs ⟨hname, hcredentials, hstar⟩
    have hasks : Asks s (.cors (namedStrArray s.args "origins") (namedStrArray s.args "methods") true) :=
      .cors hname (iff_of_true rfl hcredentials)
    have := h _ (mem_filterMap.mpr ⟨s, hs, buildMiddleware_eq_some.mpr hasks⟩)
    rw [checkCors, if_pos ⟨rfl, contains_iff_mem.mpr hstar⟩] at this
    cases this
  · intro h mw hmw
    obtain ⟨s, hs, hbuilt⟩ := mem_filterMap.mp hmw
    cases asks_of_buildMiddleware hbuilt with
    | cors name arg =>
      rw [checkCors, if_neg]
      rintro ⟨hc, hstar⟩
      exact h s hs ⟨name, arg.mp hc, contains_iff_mem.mp hstar⟩
    | stripPrefix name arg => rfl
    | rateLimit name arg => rfl
    | waf name arg => rfl
    | cache name arg => rfl

/-! ## Documents -/

section Documents

variable {ast : Ast}

theorem stmtDiags_directive {d : Flow.Directive} : stmtDiags env (.directive d) = [] ↔
    (d.keyword.node = "flow_version" → ∀ v, firstPositional d.args = some (.str v) → v ∈ supportedFlowVersions) := by
  simp only [← firstPositionalStr_eq_some]
  unfold stmtDiags lowerStmt
  dsimp only
  split
  · rename_i hk
    simp only [hk, true_implies]
    cases firstPositionalStr d.args with
    | none => exact iff_of_true rfl (fun v hv => absurd hv.symm (Option.some_ne_none v))
    | some v =>
      simp only [Option.some.injEq, forall_eq']
      split
      · rename_i hv
        exact iff_of_true rfl (contains_iff_mem.mp hv)
      · rename_i hv
        exact iff_of_false (cons_ne_nil _ _) (fun h => hv (contains_iff_mem.mpr h))
  · rename_i hk
    exact iff_of_true rfl (fun h => absurd h hk)

theorem lower_diags_eq_nil : (lower env ast).2 = [] ↔ (∀ rt ∈ siteRoutes ast, EndsOnce rt) ∧
    ∀ d ∈ directives "flow_version" ast.stmts, ∀ v, firstPositional d.args = some (.str v) →
      v ∈ supportedFlowVersions := by
  rw [lower_diags, flatMap_eq_nil_iff, siteRoutes_eq]
  constructor
  · intro h
    refine ⟨fun rt hrt => ?_, fun d hd => ?_⟩
    · obtain ⟨b, hb, hrt⟩ := mem_flatMap.mp hrt
      obtain ⟨hb, hk⟩ := mem_blocks.mp hb
      have hnil := h _ hb
      rw [stmtDiags_site hk, flatMap_eq_nil_iff] at hnil
      exact terminalIdx_diags_eq_nil.mp (hnil rt hrt)
    · obtain ⟨hd, hk⟩ := mem_directives.mp hd
      exact stmtDiags_directive.mp (h _ hd) hk
  · rintro ⟨hends, hversions⟩ s hs
    cases s with
    | block kw args body span =>
      by_cases hk : kw.node = "site"
      · rw [stmtDiags_site hk, flatMap_eq_nil_iff]
        intro rt hrt
        refine terminalIdx_diags_eq_nil.mpr (hends rt (mem_flatMap.mpr ⟨⟨kw, args, body, span⟩, ?_, hrt⟩))
        exact mem_blocks.mpr ⟨hs, hk⟩
      · exact stmtDiags_block hk
    | directive d => exact stmtDiags_directive.mpr (fun hk => hversions d (mem_directives.mpr ⟨hs, hk⟩))
    | route r => rfl

theorem upstreams_names : (lower env ast).1.upstreams.map (·.name) = upstreamNames ast := by
  rw [lower_upstreams, map_map]
  exact map_congr_left (fun b _ => lowerUpstream_name b.keyword b.args b.body)

theorem caches_names : (lower env ast).1.caches.map (·.name) = cacheNames ast := by
  rw [lower_caches, map_map]
  exact map_congr_left (fun b _ => lowerCache_name b.keyword b.args b.body)

theorem wafs_names : (lower env ast).1.wafs.map (·.name) = wafNames ast := by
  rw [lower_wafs, map_map]
  exact map_congr_left (fun b _ => lowerWaf_name b.keyword b.args b.body)

theorem userSets_names : (lower env ast).1.userSets.map (·.name) = userNames ast := by
  rw [lower_userSets, map_filterMap, userNames]
  refine filterMap_congr (fun b _ => ?_)
  rw [lowerUsersBlock, Option.map_map]
  exact Option.map_id'

theorem mem_definedNames {name : Str} : name ∈ (lower env ast).1.definedNames ↔
    name ∈ upstreamNames ast ∨ name ∈ cacheNames ast ∨ name ∈ wafNames ast ∨ name ∈ userNames ast := by
  rw [Config.definedNames, upstreams_names, caches_names, wafs_names, userSets_names]
  simp only [mem_append, or_assoc]

theorem sites_hosts : ((lower env ast).1.sites.flatMap (·.hosts)).map (·.pattern) = hostPatterns ast := by
  rw [lower_sites, flatMap_map, map_flatMap, hostPatterns]
  refine flatMap_congr (fun b _ => ?_)
  rw [lowerSiteBlock, lowerSite_hosts]

theorem sites_routes : (lower env ast).1.sites.flatMap (·.routes) = (siteRoutes ast).map (fun rt => (lowerRoute rt).1) := by
  rw [lower_sites, flatMap_map, siteRoutes_eq, map_flatMap]
  exact flatMap_congr (fun b _ => lowerSite_routes b.args b.body b.span)

theorem checkDupNames_fresh {α : Type} {kind : Str} {l : List α} {name : α → Str} {span : α → Span} :
    checkDupNames kind [] (l.map (fun a => (name a, span a))) = [] ↔ (l.map name).Nodup := by
  rw [checkDupNames_eq_nil, map_map]
  exact and_iff_left (fun e _ => not_mem_nil)

theorem findings_eq_nil : findings env ast = [] ↔ Acceptable ast := by
  rw [findings, append_eq_nil_iff, lower_diags_eq_nil, validate]
  simp only [append_eq_nil_iff, checkDupNames_fresh, upstreams_names, caches_names, wafs_names, userSets_names,
    checkHostCollisions_eq_nil, sites_hosts, sites_routes, flatMap_eq_nil_iff, forall_mem_map,
    checkRef_eq_nil, mwSpecs_lowerRoute, checkCors_eq_nil]
  have hrefs : ∀ rt : Flow.Route, (∀ r ∈ (lowerRoute rt).1.refs, r.name ∈ (lower env ast).1.definedNames) ↔
      ∀ s ∈ rt.steps, ∀ name, Mentions name s →
        name ∈ upstreamNames ast ∨ name ∈ cacheNames ast ∨ name ∈ wafNames ast ∨ name ∈ userNames ast := by
    intro rt
    have hdefined : ∀ name, name ∈ (lower env ast).1.definedNames ↔ _ := fun _ => mem_definedNames
    simp only [← hdefined, ← mentions_iff]
    constructor
    · rintro h s hs name ⟨r, hr, rfl⟩
      exact h r (mem_flatMap.mpr ⟨s, hs, hr⟩)
    · intro h r hr
      obtain ⟨s, hs, hr⟩ := mem_flatMap.mp hr
      exact h s hs r.name ⟨r, hr, rfl⟩
  simp only [hrefs]
  constructor
  · rintro ⟨⟨hends, hversions⟩, ⟨⟨⟨⟨⟨hups, hcaches⟩, hwafs⟩, husers⟩, hrefs⟩, hcors⟩, hhosts, -⟩
    exact ⟨hends, hups, hcaches, hwafs, husers, hhosts, hrefs, hcors, hversions⟩
  · rintro ⟨hends, hups, hcaches, hwafs, husers, hhosts, hrefs, hcors, hversions⟩
    exact ⟨⟨hends, hversions⟩, ⟨⟨⟨⟨⟨hups, hcaches⟩, hwafs⟩, husers⟩, hrefs⟩, hcors⟩, hhosts, fun _ _ => not_mem_nil⟩

theorem acceptable_of_compile {g : Nat} (h : compile env text g = .ok compiled) :
    ∃ ast, Flow.parse text = .ok ast ∧ compiled = ⟨(lower env ast).1, g, []⟩ ∧ Acceptable ast := by
  obtain ⟨ast, hparse, hcompiled, hnil⟩ := compile_inv h
  exact ⟨ast, hparse, hcompiled, findings_eq_nil.mp hnil⟩

theorem nodup_hosts_of_compile {g : Nat} (h : compile env text g = .ok compiled) :
    ((compiled.config.sites.flatMap (·.hosts)).map (·.pattern)).Nodup := by
  obtain ⟨ast, -, rfl, hacc⟩ := acceptable_of_compile h
  rw [sites_hosts]
  exact hacc.hosts

theorem buildRouter_routes (h : Acceptable ast) : List.Forall₂ (fun (b : Block) (site : Routing.SiteRoutes) =>
      List.Forall₂ (fun rt r => builtRoute (lower env ast).1 rt = some r) (routesIn b.body) site.routes)
    (blocks "site" ast.stmts) (buildRouter (lower env ast).1).sites := by
  rw [buildRouter]
  simp only [lower_sites, map_map]
  rw [forall₂_map_right_iff, forall₂_same]
  intro b hb
  simp only [Function.comp_apply, lowerSiteBlock, lowerSite_routes, filterMap_map]
  refine Lib.forall₂_filterMap (f := builtRoute (lower env ast).1) (fun rt hrt => exists_builtRoute _ (h.ends rt ?_))
  rw [siteRoutes_eq]
  exact mem_flatMap.mpr ⟨b, hb, hrt⟩

theorem mem_buildRouter {r : Routing.Route} : (∃ site ∈ (buildRouter (lower env ast).1).sites, r ∈ site.routes) ↔
    ∃ rt ∈ siteRoutes ast, builtRoute (lower env ast).1 rt = some r := by
  simp only [buildRouter, lower_sites, map_map, mem_map, Function.comp_apply, lowerSiteBlock, lowerSite_routes,
    filterMap_map, siteRoutes_eq, mem_flatMap]
  constructor
  · rintro ⟨site, ⟨b, hb, rfl⟩, hr⟩
    obtain ⟨rt, hrt, hr⟩ := mem_filterMap.mp hr
    exact ⟨rt, ⟨b, hb, hrt⟩, hr⟩
  · rintro ⟨rt, ⟨b, hb, hrt⟩, hr⟩
    exact ⟨_, ⟨b, hb, rfl⟩, mem_filterMap.mpr ⟨rt, hrt, hr⟩⟩

end Documents

end Pulsate.Conf
