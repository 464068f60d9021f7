import Pulsate.Config.Lemmas.Erase
import Pulsate.Config.Snapshot
import Pulsate.Flow.Lemmas.Value

/-!
# What the identity of a snapshot depends on

The `Debug` form is a template that the configuration without positions determines, filled with the positions. A span says
itself where it ends, so two fillings are the same text only if the positions are the same.
-/

namespace Pulsate.Conf

open List
open Pulsate.Flow (Ast Span debugSpan natText)
open Lib (Piece Template)
open Lib.Template (blank holes sepBy)

/-! ## Spans -/

theorem debugSpan_append_inj {a b : Span} {x y : Str} (h : debugSpan a ++ x = debugSpan b ++ y) : a = b ∧ x = y := by
  obtain ⟨offset, len, line, col⟩ := a
  obtain ⟨offset', len', line', col'⟩ := b
  unfold debugSpan at h
  generalize "Span \x7b offset: " = start at h
  generalize hlen : ", len: " = beforeLen at h
  generalize hline : ", line: " = beforeLine at h
  generalize hcol : ", col: " = beforeCol at h
  generalize hstop : " \x7d" = stop at h
  simp only [append_assoc] at h
  obtain ⟨h1, h⟩ := Flow.natText_append_inj (by rw [← hlen]; decide) (append_cancel_left h)
  obtain ⟨h2, h⟩ := Flow.natText_append_inj (by rw [← hline]; decide) h
  obtain ⟨h3, h⟩ := Flow.natText_append_inj (by rw [← hcol]; decide) h
  obtain ⟨h4, h⟩ := Flow.natText_append_inj (by rw [← hstop]; decide) h
  rw [h1, h2, UInt32.toNat_inj.mp h3, UInt32.toNat_inj.mp h4]
  exact ⟨rfl, h⟩

/-! ## The template -/

section Derived

variable {α : Type}

@[simp] theorem blank_debugStruct (name : Str) (fields : List (Str × Template Char α)) :
    blank (debugStruct name fields) = debugStruct name (fields.map (fun f => (f.1, blank f.2))) := by
  simp [debugStruct, Function.comp_def]

@[simp] theorem blank_debugTuple (name : Str) (field : Template Char α) :
    blank (debugTuple name field) = debugTuple name (blank field) := by
  simp [debugTuple]

@[simp] theorem blank_debugList (items : List (Template Char α)) :
    blank (debugList items) = debugList (items.map blank) := by
  simp [debugList]

@[simp] theorem holes_debugStruct (name : Str) (fields : List (Str × Template Char α)) :
    holes (debugStruct name fields) = fields.flatMap (fun f => holes f.2) := by
  simp [debugStruct, flatMap_map]

@[simp] theorem holes_debugTuple (name : Str) (field : Template Char α) :
    holes (debugTuple name field) = holes field := by
  simp [debugTuple]

@[simp] theorem holes_debugList (items : List (Template Char α)) : holes (debugList items) = items.flatMap holes := by
  simp [debugList]

end Derived

section Spanless

/-! Most parts of a configuration have no positions. -/

variable {l : List Str} {s : Str} {n : Nat} {b : Bool}

@[simp] theorem holes_debugText : holes (debugText s : Template Char Span) = [] := rfl

@[simp] theorem holes_debugNat : holes (debugNat n : Template Char Span) = [] := rfl

@[simp] theorem holes_debugBool : holes (debugBool b : Template Char Span) = [] := rfl

@[simp] theorem holes_debugTexts : holes (debugTexts l : Template Char Span) = [] := by
  simp [debugTexts, flatMap_map]

theorem holes_debugOption {γ : Type} {f : γ → Template Char Span} (hf : ∀ c, holes (f c) = []) (o : Option γ) :
    holes (debugOption (o.map f)) = [] := by
  cases o with
  | none => rfl
  | some c => exact (holes_debugTuple _ _).trans (hf c)

@[simp] theorem holes_debugOption_text (o : Option Str) :
    holes (debugOption (o.map debugText) : Template Char Span) = [] := holes_debugOption (fun _ => rfl) o

theorem holes_debugList_nil {γ : Type} {f : γ → Template Char Span} (hf : ∀ c, holes (f c) = []) (items : List γ) :
    holes (debugList (items.map f)) = [] := by
  rw [holes_debugList, flatMap_map, flatMap_eq_nil_iff]
  exact fun c _ => hf c

theorem holes_debugList_map {γ : Type} {f : γ → Template Char Span} {span : γ → Span} (hf : ∀ c, holes (f c) = [span c])
    (items : List γ) : holes (debugList (items.map f)) = items.map span := by
  rw [holes_debugList, flatMap_map, map_eq_flatMap]
  exact congrArg (List.flatMap · items) (funext hf)

@[simp] theorem holes_debugTarget (t : Target) : holes (debugTarget t) = [] := by simp [debugTarget]

@[simp] theorem holes_debugRetry (r : Retry) : holes (debugRetry r) = [] := by
  simp [debugRetry]

@[simp] theorem holes_debugBreaker (b : Breaker) : holes (debugBreaker b) = [] := by simp [debugBreaker]

@[simp] theorem holes_debugMwSpec (m : MwSpec) : holes (debugMwSpec m) = [] := by cases m <;> simp [debugMwSpec]

@[simp] theorem holes_debugHandler (h : Handler) : holes (debugHandler h) = [] := by
  cases h <;> simp [debugHandler]

@[simp] theorem holes_debugTls (t : TlsMode) : holes (debugTls t) = [] := by cases t <;> rfl

@[simp] theorem holes_debugKind (k : Flow.MatchKind) : holes (debugKind k) = [] := by cases k <;> rfl

end Spanless

/-! ## Positions -/

theorem holes_debugUpstream (u : Upstream) : holes (debugUpstream u) = [u.span] := by
  simp [debugUpstream, holes_debugOption]

theorem holes_debugCache (c : CacheDef) : holes (debugCache c) = [c.span] := by simp [debugCache]

theorem holes_debugWaf (w : WafDef) : holes (debugWaf w) = [w.span] := by simp [debugWaf]

theorem holes_debugNamed (n : Named) : holes (debugNamed n) = [n.span] := by simp [debugNamed]

theorem holes_debugRef (r : RefUse) : holes (debugRef r) = [r.span] := by simp [debugRef]

theorem holes_debugHost (h : Host) : holes (debugHost h) = [h.span] := by simp [debugHost]

theorem holes_debugRoute (r : RouteDef) : holes (debugRoute r) = r.refs.map (·.span) ++ [r.span] := by
  simp only [debugRoute, holes_debugStruct, flatMap_cons, flatMap_nil, holes_debugKind, holes_debugText,
    holes_debugOption_text, holes_debugTexts, holes_debugList_nil holes_debugMwSpec, holes_debugOption holes_debugHandler,
    holes_debugList_map holes_debugRef, Template.holes_hole, Template.holes_nil, nil_append, append_nil]

theorem holes_debugSite (s : Site) :
    holes (debugSite s) = s.hosts.map (·.span) ++ (s.routes.flatMap (fun r => holes (debugRoute r)) ++ [s.span]) := by
  simp only [debugSite, holes_debugStruct, flatMap_cons, flatMap_nil, holes_debugList_map holes_debugHost,
    holes_debugTls, holes_debugList, flatMap_map, Template.holes_hole, Template.holes_nil, nil_append,
    append_nil]

theorem holes_debugConfig (c : Config) : holes (debugConfig c) =
    c.upstreams.map (·.span) ++ (c.caches.map (·.span) ++ (c.wafs.map (·.span) ++ (c.userSets.map (·.span) ++
      c.sites.flatMap (fun s => holes (debugSite s))))) := by
  simp only [debugConfig, holes_debugStruct, flatMap_cons, flatMap_nil, holes_debugOption_text,
    holes_debugList_map holes_debugUpstream, holes_debugList_map holes_debugCache, holes_debugList_map holes_debugWaf,
    holes_debugList_map holes_debugNamed, holes_debugList, flatMap_map, nil_append, append_nil]

/-! ## Without positions -/

theorem blank_debugList_erase {γ : Type} {f : γ → Template Char Span} {erase : γ → γ}
    (h : ∀ c, blank (f (erase c)) = blank (f c)) (items : List γ) :
    blank (debugList ((items.map erase).map f)) = blank (debugList (items.map f)) := by
  rw [blank_debugList, blank_debugList, map_map, map_map, map_map]
  exact congrArg debugList (map_congr_left (fun c _ => h c))

theorem blank_debugUpstream (u : Upstream) : blank (debugUpstream u.erase) = blank (debugUpstream u) := by
  rw [debugUpstream, debugUpstream, blank_debugStruct, blank_debugStruct]
  rfl

theorem blank_debugCache (c : CacheDef) : blank (debugCache c.erase) = blank (debugCache c) := by
  rw [debugCache, debugCache, blank_debugStruct, blank_debugStruct]
  rfl

theorem blank_debugWaf (w : WafDef) : blank (debugWaf w.erase) = blank (debugWaf w) := by
  rw [debugWaf, debugWaf, blank_debugStruct, blank_debugStruct]
  rfl

theorem blank_debugNamed (n : Named) : blank (debugNamed n.erase) = blank (debugNamed n) := by
  rw [debugNamed, debugNamed, blank_debugStruct, blank_debugStruct]
  rfl

theorem blank_debugRef (r : RefUse) : blank (debugRef r.erase) = blank (debugRef r) := by
  rw [debugRef, debugRef, blank_debugStruct, blank_debugStruct]
  rfl

theorem blank_debugHost (h : Host) : blank (debugHost h.erase) = blank (debugHost h) := by
  rw [debugHost, debugHost, blank_debugStruct, blank_debugStruct]
  rfl

theorem blank_debugRoute (r : RouteDef) : blank (debugRoute r.erase) = blank (debugRoute r) := by
  have hrefs := blank_debugList_erase blank_debugRef r.refs
  rw [debugRoute, debugRoute, blank_debugStruct, blank_debugStruct]
  simp only [map_cons, map_nil, RouteDef.erase, hrefs, Template.blank_hole]

theorem blank_debugSite (s : Site) : blank (debugSite s.erase) = blank (debugSite s) := by
  have hhosts := blank_debugList_erase blank_debugHost s.hosts
  have hroutes := blank_debugList_erase blank_debugRoute s.routes
  rw [debugSite, debugSite, blank_debugStruct, blank_debugStruct]
  simp only [map_cons, map_nil, Site.erase, hhosts, hroutes, Template.blank_hole]

theorem blank_debugConfig (c : Config) : blank (debugConfig c.erase) = blank (debugConfig c) := by
  have hups := blank_debugList_erase blank_debugUpstream c.upstreams
  have hcaches := blank_debugList_erase blank_debugCache c.caches
  have hwafs := blank_debugList_erase blank_debugWaf c.wafs
  have husers := blank_debugList_erase blank_debugNamed c.userSets
  have hsites := blank_debugList_erase blank_debugSite c.sites
  rw [debugConfig, debugConfig, blank_debugStruct, blank_debugStruct]
  simp only [map_cons, map_nil, Config.erase, hups, hcaches, hwafs, husers, hsites]

/-! ## Documents -/

section Documents

variable {env : Str → Option Str}

theorem holes_lowerRoute (r : Flow.Route) : holes (debugRoute (lowerRoute r).1) = recordedInRoute r := by
  rw [holes_debugRoute, recordedInRoute]
  show (r.steps.flatMap (fun s => collectRefs s.args)).map (·.span) ++ [r.span] = _
  rw [map_flatMap]

theorem holes_lowerSite (b : Block) : holes (debugSite (lowerSiteBlock b).1) = recordedInSite b := by
  rw [holes_debugSite, lowerSiteBlock, lowerSite_hosts, lowerSite_routes, lowerSite_span, flatMap_map, recordedInSite,
    append_assoc]
  simp only [holes_lowerRoute]

theorem users_spans (bs : List Block) : (bs.filterMap lowerUsersBlock).map (·.span) =
    (bs.filter (fun b => (firstPositionalStr b.args).isSome)).map (·.keyword.span) := by
  induction bs with
  | nil => rfl
  | cons b bs ih =>
    cases h : firstPositionalStr b.args with
    | none =>
      rw [filterMap_cons_none (by rw [lowerUsersBlock, h]; rfl), filter_cons_of_neg (by rw [h]; decide), ih]
    | some name =>
      rw [filterMap_cons_some (b := ⟨name, b.keyword.span⟩) (by rw [lowerUsersBlock, h]; rfl),
        filter_cons_of_pos (by rw [h]; rfl), map_cons, map_cons, ih]

theorem holes_lower (ast : Ast) : holes (debugConfig (lower env ast).1) = recorded ast := by
  rw [holes_debugConfig, lower_upstreams, lower_caches, lower_wafs, lower_userSets, lower_sites, users_spans, recorded,
    map_map, map_map, map_map, flatMap_map]
  have hups : (fun u : Upstream => u.span) ∘ lowerUpstreamBlock env = fun b : Block => b.keyword.span :=
    funext fun b => lowerUpstream_span b.keyword b.args b.body
  have hcaches : (fun c : CacheDef => c.span) ∘ lowerCacheBlock = fun b : Block => b.keyword.span :=
    funext fun b => lowerCache_span b.keyword b.args b.body
  have hwafs : (fun w : WafDef => w.span) ∘ lowerWafBlock = fun b : Block => b.keyword.span :=
    funext fun b => lowerWaf_span b.keyword b.args b.body
  simp only [hups, hcaches, hwafs, holes_lowerSite, append_assoc]

/-- Trees that differ in positions only are rendered alike exactly if the recorded positions are the same. -/
theorem debug_eq_iff {ast ast' : Ast} (h : ast.erase = ast'.erase) :
    (lower env ast).1.debug = (lower env ast').1.debug ↔ recorded ast = recorded ast' := by
  have hblank : blank (debugConfig (lower env ast).1) = blank (debugConfig (lower env ast').1) := by
    rw [← blank_debugConfig, ← lower_erase, h, lower_erase, blank_debugConfig]
  rw [Config.debug, Config.debug, Template.render_eq_iff debugSpan_append_inj hblank, holes_lower, holes_lower]

end Documents

end Pulsate.Conf
