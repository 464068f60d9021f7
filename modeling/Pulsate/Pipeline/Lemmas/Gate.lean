import Pulsate.Pipeline.Gate

/-!
# How a request gets through a pipeline
-/

namespace Pulsate.Pipeline

open List Option Function
open Http (Response)
open Routing (Mw)
open Waf (Buckets RateLimiter)

/-! ## Where a request stops -/

theorem ingressStep_eq (now : Nat) (mw : Mw) (buckets : Buckets) (req : RequestView) :
    ingressStep now mw buckets req =
      ((stepResponse now mw buckets req).elim (.ok { req with path := rewriteStep req.path mw }) .error,
        charged now mw buckets req) := by
  cases mw with
  | stripPrefix strip =>
    simp only [ingressStep, stepResponse, charged, rewriteStep]
    cases req.path.stripPrefix strip <;> rfl
  | headers set remove => rfl
  | cors origins methods credentials =>
    simp only [ingressStep, stepResponse, charged]
    split <;> rfl
  | rateLimit limiter key =>
    simp only [ingressStep, stepResponse, charged]
    split <;> rfl
  | waf engine =>
    simp only [ingressStep, stepResponse, charged]
    cases engine.inspect req.pathAndQuery <;> rfl
  | ip acl =>
    simp only [ingressStep, stepResponse, charged]
    cases req.clientIp.bind acl.check <;> rfl

theorem ingressFrom_cons_of_none {clock : Nat → Nat} {i : Nat} {mw : Mw} {limiters : Nat → Buckets} {req : RequestView}
    (h : stepResponse (clock i) mw (limiters i) req = none) (pipeline : List Mw) :
    ingressFrom clock i (mw :: pipeline) limiters req =
      ingressFrom clock (i + 1) pipeline (update limiters i (charged (clock i) mw (limiters i) req))
        { req with path := rewriteStep req.path mw } := by
  rw [ingressFrom, ingressStep_eq, h]
  rfl

theorem ingressFrom_cons_of_some {clock : Nat → Nat} {i : Nat} {mw : Mw} {limiters : Nat → Buckets} {req : RequestView}
    {resp : Response} (h : stepResponse (clock i) mw (limiters i) req = some resp) (pipeline : List Mw) :
    ingressFrom clock i (mw :: pipeline) limiters req =
      ⟨some resp, req, update limiters i (charged (clock i) mw (limiters i) req)⟩ := by
  rw [ingressFrom, ingressStep_eq, h]
  rfl

theorem limiters_ingressFrom_of_lt {i j : Nat} (h : j < i) (clock : Nat → Nat) (pipeline : List Mw) (limiters : Nat → Buckets)
    (req : RequestView) :
    (ingressFrom clock i pipeline limiters req).limiters j = limiters j := by
  induction pipeline generalizing i limiters req with
  | nil => rfl
  | cons mw pipeline ih =>
    have hne := update_of_ne (Nat.ne_of_lt h) (charged (clock i) mw (limiters i) req) limiters
    cases hmw : stepResponse (clock i) mw (limiters i) req with
    | some resp => rwa [ingressFrom_cons_of_some hmw]
    | none =>
      rw [ingressFrom_cons_of_none hmw]
      exact (ih (Nat.lt_succ_of_lt h) _ _).trans hne

theorem update_behind (limiters : Nat → Buckets) (i : Nat) (buckets : Buckets) :
    (fun j => update limiters i buckets (i + 1 + j)) = fun j => limiters (i + 1 + j) := by
  funext j
  exact update_of_ne (by omega) _ _

theorem StoppedAt.cons {clock : Nat → Nat} {i : Nat} {mw m : Mw} {limiters after : Nat → Buckets} {req : RequestView}
    {pre : List Mw} {resp : Response} (hmw : stepResponse (clock i) mw (limiters i) req = none)
    (hafter : after i = charged (clock i) mw (limiters i) req)
    (h : StoppedAt (fun j => clock (i + 1 + j)) (fun j => limiters (i + 1 + j)) { req with path := rewriteStep req.path mw }
      pre m resp (fun j => after (i + 1 + j))) :
    StoppedAt (fun j => clock (i + j)) (fun j => limiters (i + j)) req (mw :: pre) m resp (fun j => after (i + j)) := by
  have hindex : ∀ n, i + (n + 1) = i + 1 + n := fun n => by omega
  refine ⟨?_, ?_, ?_, ?_⟩
  · rintro (_ | ⟨first, p⟩) x q heq
    · cases heq
      exact hmw
    · cases heq
      have hfirst := h.first p x q rfl
      rw [← hindex] at hfirst
      exact hfirst
  · have hresponse := h.response
    rw [← hindex] at hresponse
    exact hresponse
  · rintro (_ | ⟨first, p⟩) x q heq
    · cases heq
      exact hafter
    · obtain ⟨rfl, hrest⟩ := List.cons.inj heq
      have hcounted := h.counted p x q hrest
      rw [← hindex] at hcounted
      exact hcounted
  · rintro (_ | j) hj
    · cases hj
    · have hbehind := h.behind j (by simpa using hj)
      rw [← hindex] at hbehind
      exact hbehind

theorem ingressFrom_stops (clock : Nat → Nat) (i : Nat) (pipeline : List Mw) (limiters : Nat → Buckets) (req : RequestView) :
    ((ingressFrom clock i pipeline limiters req).short = none ∧
      (ingressFrom clock i pipeline limiters req).view = req.behind pipeline ∧
      ∀ p m q, pipeline = p ++ m :: q → stepResponse (clock (i + p.length)) m (limiters (i + p.length)) (req.behind p) = none) ∨
    (∃ pre mw post resp, pipeline = pre ++ mw :: post ∧ (ingressFrom clock i pipeline limiters req).short = some resp ∧
      StoppedAt (fun j => clock (i + j)) (fun j => limiters (i + j)) req pre mw resp
        (fun j => (ingressFrom clock i pipeline limiters req).limiters (i + j))) := by
  induction pipeline generalizing i limiters req with
  | nil => exact .inl ⟨rfl, rfl, fun p m q h => by simp at h⟩
  | cons mw pipeline ih =>
    cases hmw : stepResponse (clock i) mw (limiters i) req with
    | some resp =>
      rw [ingressFrom_cons_of_some hmw]
      refine .inr ⟨[], mw, pipeline, resp, rfl, rfl, ⟨?_, hmw, ?_, ?_⟩⟩
      · intro p m q h
        simp at h
      · intro p m q h
        obtain ⟨rfl, rfl, rfl⟩ : p = [] ∧ m = mw ∧ q = [] := by
          cases p with
          | nil => simpa [eq_comm] using h
          | cons x p => simp at h
        exact update_self _ _ _
      · intro j hj
        exact update_of_ne (by simp at hj; omega) _ _
    | none =>
      have hself := limiters_ingressFrom_of_lt (Nat.lt_succ_self i) clock pipeline
        (update limiters i (charged (clock i) mw (limiters i) req)) { req with path := rewriteStep req.path mw }
      rw [update_self] at hself
      rw [ingressFrom_cons_of_none hmw]
      rcases ih (i + 1) (update limiters i (charged (clock i) mw (limiters i) req))
        { req with path := rewriteStep req.path mw } with ⟨hshort, hview, hnone⟩ | ⟨pre, m, post, resp, rfl, hshort, hstopped⟩
      · refine .inl ⟨hshort, hview, ?_⟩
        rintro (_ | ⟨first, p⟩) m q heq
        · cases heq
          exact hmw
        · cases heq
          have hlater := hnone p m q rfl
          rw [update_of_ne (by omega), Nat.add_assoc, Nat.add_comm 1] at hlater
          exact hlater
      · rw [update_behind] at hstopped
        exact .inr ⟨mw :: pre, m, post, resp, rfl, hshort, hstopped.cons hmw hself⟩

theorem ingress_stops (clock : Nat → Nat) (pipeline : List Mw) (limiters : Nat → Buckets) (req : RequestView) :
    ((ingress clock pipeline limiters req).short = none ∧
      (ingress clock pipeline limiters req).view = req.behind pipeline ∧
      ∀ p m q, pipeline = p ++ m :: q → stepResponse (clock p.length) m (limiters p.length) (req.behind p) = none) ∨
    (∃ pre mw post resp, pipeline = pre ++ mw :: post ∧ (ingress clock pipeline limiters req).short = some resp ∧
      StoppedAt clock limiters req pre mw resp (ingress clock pipeline limiters req).limiters) := by
  have h := ingressFrom_stops clock 0 pipeline limiters req
  simp only [Nat.zero_add] at h
  exact h

theorem stepResponse_cases {now : Nat} {mw : Mw} {buckets : Buckets} {req : RequestView} {resp : Response}
    (h : stepResponse now mw buckets req = some resp) :
    (rejects now mw buckets req ∧ Refusal resp) ∨
    (∃ cors, corsStep mw = some cors ∧ IsPreflight req ∧ resp = preflight cors req.origin) := by
  cases mw with
  | stripPrefix strip => cases h
  | headers set remove => cases h
  | cors origins methods credentials =>
    rw [stepResponse] at h
    split at h
    · rename_i hpre
      cases h
      exact .inr ⟨_, rfl, hpre, rfl⟩
    · cases h
  | rateLimit limiter key =>
    rw [stepResponse] at h
    split at h
    · cases h
    · rename_i hdenied
      cases h
      exact .inl ⟨by simpa [rejects] using hdenied, .rateLimited _⟩
  | waf engine =>
    obtain ⟨block, hblock, rfl⟩ := map_eq_some_iff.mp h
    exact .inl ⟨isSome_iff_exists.mpr ⟨block, hblock⟩, .blocked _⟩
  | ip acl =>
    obtain ⟨block, hblock, rfl⟩ := map_eq_some_iff.mp h
    exact .inl ⟨isSome_iff_exists.mpr ⟨block, hblock⟩, .blocked _⟩

theorem ingress_cases (clock : Nat → Nat) (pipeline : List Mw) (limiters : Nat → Buckets) (req : RequestView) :
    (Rejected clock pipeline limiters req ∧ ∃ resp, Refusal resp ∧ (ingress clock pipeline limiters req).short = some resp) ∨
    (∃ cors ∈ corsSteps pipeline, IsPreflight req ∧
      (ingress clock pipeline limiters req).short = some (preflight cors req.origin)) ∨
    (ingress clock pipeline limiters req).short = none ∧
      (ingress clock pipeline limiters req).view = { req with path := rewritten pipeline req.path } := by
  rcases ingress_stops clock pipeline limiters req with ⟨hshort, hview, -⟩ | ⟨pre, mw, post, resp, rfl, hshort, hstopped⟩
  · exact .inr (.inr ⟨hshort, hview⟩)
  · rcases stepResponse_cases hstopped.response with ⟨hrejects, hrefusal⟩ | ⟨cors, hcors, hpre, rfl⟩
    · exact .inl ⟨⟨pre, mw, post, rfl, hrejects⟩, resp, hrefusal, hshort⟩
    · have hmem : mw ∈ pre ++ mw :: post := mem_append_right _ mem_cons_self
      exact .inr (.inl ⟨cors, mem_filterMap.mpr ⟨mw, hmem, hcors⟩, hpre, hshort⟩)

theorem inspect_eq_none_iff (engine : Waf.WafEngine) (target : Str) :
    engine.inspect target = none ↔ (engine.mode = .block → Waf.WafEngine.detect target = none) := by
  unfold Waf.WafEngine.inspect
  cases Waf.WafEngine.detect target with
  | none => exact iff_of_true rfl (fun _ => rfl)
  | some matched =>
    cases hmode : engine.mode with
    | block => exact iff_of_false (fun h => by cases h) (fun h => by cases h rfl)
    | detect => exact iff_of_true rfl (fun h => by cases h)

theorem passes_iff {clock : Nat → Nat} {pipeline : List Mw} {limiters : Nat → Buckets} {req : RequestView} {ip : IpAddr}
    (hip : req.clientIp = some ip) :
    Passes clock pipeline limiters req ip ↔
      ∀ p m q, pipeline = p ++ m :: q → stepResponse (clock p.length) m (limiters p.length) (req.behind p) = none := by
  have hip' : ∀ p, (req.behind p).clientIp = some ip := fun _ => hip
  constructor
  · intro h p m q heq
    have hmem : m ∈ pipeline := heq ▸ mem_append_right _ mem_cons_self
    cases m with
    | stripPrefix strip => rfl
    | headers set remove => rfl
    | cors origins methods credentials =>
      refine if_neg (fun hpre => h.preflight ⟨hpre, _, _, _, hmem⟩)
    | rateLimit limiter key => exact if_pos (h.limits p limiter key q heq)
    | waf engine => exact map_eq_none_iff.mpr ((inspect_eq_none_iff engine _).mpr (h.signatures engine hmem))
    | ip acl =>
      rw [stepResponse, hip']
      exact map_eq_none_iff.mpr (h.addresses acl hmem)
  · intro h
    have hmem : ∀ m ∈ pipeline, ∃ p q, pipeline = p ++ m :: q := fun m hm => append_of_mem hm
    refine ⟨fun acl hacl => ?_, fun engine hengine hmode => ?_, fun p limiter key q heq => ?_, ?_⟩
    · obtain ⟨p, q, heq⟩ := hmem _ hacl
      have hnone := h p _ q heq
      rw [stepResponse, hip'] at hnone
      exact map_eq_none_iff.mp hnone
    · obtain ⟨p, q, heq⟩ := hmem _ hengine
      exact (inspect_eq_none_iff engine _).mp (map_eq_none_iff.mp (h p _ q heq)) hmode
    · by_contra hdenied
      have hnone := h p _ q heq
      rw [stepResponse, if_neg hdenied] at hnone
      cases hnone
    · rintro ⟨hpre, origins, methods, credentials, hcors⟩
      obtain ⟨p, q, heq⟩ := hmem _ hcors
      have hnone := h p _ q heq
      cases (if_pos hpre).symm.trans hnone

theorem gates_of_clientIp {clock : Nat → Nat} {pipeline : List Mw} {limiters : Nat → Buckets} {req : RequestView} {ip : IpAddr}
    (hip : req.clientIp = some ip) : Gates clock pipeline limiters req ip := by
  rcases ingress_stops clock pipeline limiters req with ⟨hshort, -, hnone⟩ | ⟨pre, mw, post, resp, hsplit, hshort, hstopped⟩
  · refine ⟨iff_of_true hshort ((passes_iff hip).mpr hnone), fun resp hresp => ?_⟩
    cases hshort.symm.trans hresp
  · refine ⟨iff_of_false (fun hnone => ?_) (fun hpasses => ?_), fun resp' hresp => ?_⟩
    · cases hnone.symm.trans hshort
    · cases ((passes_iff hip).mp hpasses pre mw post hsplit).symm.trans hstopped.response
    · cases hshort.symm.trans hresp
      exact ⟨pre, mw, post, hsplit, hstopped⟩

theorem view_of_short_none {clock : Nat → Nat} {pipeline : List Mw} {limiters : Nat → Buckets} {req : RequestView}
    (h : (ingress clock pipeline limiters req).short = none) :
    (ingress clock pipeline limiters req).view = { req with path := rewritten pipeline req.path } := by
  rcases ingress_cases clock pipeline limiters req with ⟨-, _, -, heq⟩ | ⟨_, -, -, heq⟩ | ⟨-, hview⟩
  · cases h.symm.trans heq
  · cases h.symm.trans heq
  · exact hview

/-! ## What limiters count -/

section Counts

variable {clock : Nat → Nat} {i : Nat} {pipeline : List Mw} {limiters : Nat → Buckets} {req : RequestView}

theorem check_eq_self_iff (limiter : RateLimiter) (now : Nat) (key : Str) (buckets : Buckets) :
    (limiter.check now key buckets).2 = buckets ↔ limiter.windowSecs = 0 ∧ buckets.get? key = some (now, 1) := by
  have hwindow : limiter.window = limiter.windowSecs * 10 ^ 9 := rfl
  rw [RateLimiter.check, Lib.OrdMap.insert_eq_self_iff]
  rcases buckets.get? key with _ | ⟨start, used⟩
  · simp
  · simp only [getD_some, Option.some.injEq, Prod.mk.injEq]
    by_cases hover : limiter.window ≤ now - start
    · rw [if_pos hover]
      dsimp only
      omega
    · rw [if_neg hover]
      dsimp only
      omega

theorem charged_eq_self_iff (now : Nat) (mw : Mw) (buckets : Buckets) (req : RequestView) :
    charged now mw buckets req = buckets ↔ counts now mw buckets req = false := by
  cases mw with
  | rateLimit limiter key =>
    simp only [charged, counts, decide_eq_false_iff_not, not_not]
    exact check_eq_self_iff limiter now (rateKey key req) buckets
  | _ => exact iff_of_true rfl rfl

theorem ingressFrom_limiters_eq_self_iff (h : (ingressFrom clock i pipeline limiters req).short = none) :
    (ingressFrom clock i pipeline limiters req).limiters = limiters ↔
      ∀ pre mw post, pipeline = pre ++ mw :: post →
        counts (clock (i + pre.length)) mw (limiters (i + pre.length)) { req with path := rewritten pre req.path } = false := by
  induction pipeline generalizing i limiters req with
  | nil => simp [ingressFrom]
  | cons mw pipeline ih =>
    have hself := charged_eq_self_iff (clock i) mw (limiters i) req
    cases hmw : stepResponse (clock i) mw (limiters i) req with
    | some resp =>
      rw [ingressFrom_cons_of_some hmw] at h
      cases h
    | none =>
      rw [ingressFrom_cons_of_none hmw] at h ⊢
      generalize charged (clock i) mw (limiters i) req = buckets at h hself ⊢
      have hindex : ∀ pre : List Mw, i + 1 + pre.length = i + (mw :: pre).length := by
        intro pre
        rw [length_cons]
        omega
      constructor
      · intro hlimiters pre mw' post heq
        -- its own limiter is not touched by the steps behind it
        have hbuckets : buckets = limiters i := by
          have hi := limiters_ingressFrom_of_lt (Nat.lt_succ_self i) clock pipeline (update limiters i buckets)
            { req with path := rewriteStep req.path mw }
          rw [hlimiters, update_self] at hi
          exact hi.symm
        rw [hbuckets, update_eq_self] at h hlimiters
        cases pre with
        | nil =>
          cases heq
          exact hself.mp hbuckets
        | cons mw'' pre =>
          cases heq
          have hlater := (ih h).mp hlimiters pre mw' post rfl
          rw [hindex] at hlater
          exact hlater
      · intro hnone
        have hbuckets := hself.mpr (hnone [] mw pipeline rfl)
        rw [hbuckets, update_eq_self] at h ⊢
        refine (ih h).mpr (fun pre mw' post heq => ?_)
        have hlater := hnone (mw :: pre) mw' post (congrArg (mw :: ·) heq)
        rw [← hindex] at hlater
        exact hlater

theorem ingress_limiters_eq_self_iff (h : (ingress clock pipeline limiters req).short = none) :
    (ingress clock pipeline limiters req).limiters = limiters ↔ ¬ Counted clock pipeline limiters req := by
  rw [ingress, ingressFrom_limiters_eq_self_iff h]
  simp only [Counted, Nat.zero_add, not_exists, not_and, Bool.not_eq_true]

end Counts

/-! ## Prefixes -/

theorem meets_iff {base rest : Str} (hbase : base.getLast? ≠ some '/') (n : Nat) :
    Meets (base ++ List.replicate n '/') rest ↔ if rest.head? = some '/' then n = 0 else n = 1 := by
  unfold Meets
  match n with
  | 0 =>
    have hslashes : ¬ ['/', '/'] <:+ base := by
      rintro ⟨s, rfl⟩
      simp at hbase
    simp [hslashes, hbase]
  | 1 =>
    have hslashes : ¬ ['/', '/'] <:+ base ++ ['/'] := by
      rintro ⟨s, hs⟩
      rw [show ['/', '/'] = ['/'] ++ ['/'] from rfl, ← append_assoc] at hs
      have := append_cancel_right hs
      subst this
      simp at hbase
    simp [hslashes]
  | n + 2 =>
    have hslashes : ['/', '/'] <:+ base ++ List.replicate (n + 2) '/' := by
      refine ⟨base ++ List.replicate n '/', ?_⟩
      rw [append_assoc, replicate_add]
      rfl
    simp [hslashes]

/-- What follows a prefix is taken as it is where it begins with a slash. -/
theorem strips_slash_iff {strip rest : Str} (hrest : rest.head? = some '/') :
    Strips strip (strip ++ rest) rest ↔ Meets strip rest := by
  obtain ⟨n, hstrip, hlast⟩ := strip.exists_trimEndMatches '/'
  generalize hbase : strip.trimEndMatches '/' = base at hstrip hlast
  have hlen : 0 < rest.length := length_pos_iff.mpr (by rintro rfl; cases hrest)
  have hstripLen : strip.length = base.length + n := by simp [hstrip]
  have hmeets : Meets strip rest ↔ n = 0 := by rw [hstrip, meets_iff hlast, if_pos hrest]
  rw [hmeets]
  constructor
  · intro h
    by_cases hpath : rest = strip ++ rest
    · have := congrArg List.length hpath
      simp only [length_append] at this
      omega
    · rcases hbase ▸ h.parts hpath with heq | ⟨heq | heq, -⟩ <;>
      · have := congrArg List.length heq
        simp only [length_append] at this
        omega
  · rintro rfl
    have hsame : strip = base := by simpa using hstrip
    obtain ⟨rest', rfl⟩ := head?_eq_some_iff.mp hrest
    refine ⟨fun _ => .inl (by rw [hbase, hsame]), fun _ hnot => absurd (.inr ⟨rest', ?_⟩) hnot⟩
    rw [hbase, hsame, append_assoc]
    rfl

theorem strips_cons_iff {strip rest : Str} (hne : rest ≠ []) (hrest : rest.head? ≠ some '/') :
    Strips strip (strip ++ rest) ('/' :: rest) ↔ Meets strip rest := by
  obtain ⟨n, hstrip, hlast⟩ := strip.exists_trimEndMatches '/'
  generalize hbase : strip.trimEndMatches '/' = base at hstrip hlast
  have hlen : 0 < rest.length := length_pos_iff.mpr hne
  have hstripLen : strip.length = base.length + n := by simp [hstrip]
  have hmeets : Meets strip rest ↔ n = 1 := by rw [hstrip, meets_iff hlast, if_neg hrest]
  rw [hmeets]
  constructor
  · intro h
    by_cases hpath : '/' :: rest = strip ++ rest
    · have hslash : strip = ['/'] := (append_cancel_right (show ['/'] ++ rest = strip ++ rest from hpath)).symm
      subst hslash
      cases base with
      | nil => simpa using hstripLen.symm
      | cons c base =>
        have hn : n = 0 := by
          simp only [length_cons, length_nil] at hstripLen
          omega
        subst hn
        rw [replicate_zero, append_nil] at hstrip
        exact absurd (by rw [← hstrip]; rfl) hlast
    · rcases hbase ▸ h.parts hpath with heq | ⟨heq | heq, -⟩ <;>
      · have := congrArg List.length heq
        simp only [length_append, length_cons] at this
        omega
  · rintro rfl
    have hpath : strip ++ rest = base ++ '/' :: rest := by
      rw [hstrip, append_assoc]
      rfl
    refine ⟨fun _ => .inl (by rw [hbase, hpath]), fun _ hnot => absurd (.inr ⟨rest, ?_⟩) hnot⟩
    rw [hbase, hpath, append_assoc]
    rfl

theorem strips_self (strip : Str) : Strips strip strip ['/'] := by
  obtain ⟨n, hstrip, -⟩ := strip.exists_trimEndMatches '/'
  refine ⟨fun _ => .inr ⟨.inr rfl, rfl⟩, fun _ hnot => absurd ?_ hnot⟩
  cases n with
  | zero => exact .inl (by simpa using hstrip)
  | succ n =>
    refine .inr ⟨List.replicate n '/', ?_⟩
    rw [append_assoc]
    exact hstrip.symm

end Pulsate.Pipeline
