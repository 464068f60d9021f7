import Pulsate.Config.Lemmas.Acceptance
import Pulsate.Config.Settings

/-!
# Settings through lowering

Each setting is a fold over the directives that write it.
-/

namespace Pulsate.Conf

open List Lib Option
open Pulsate.Flow (Arg Ast Directive Span Spanned Stmt Value)

/-! ## Folds over directives -/

section Folds

variable {keys : List Str} {body : List Stmt} {v : Value}

theorem directivesOf_append (keys : List Str) (l l' : List Stmt) :
    directivesOf keys (l ++ l') = directivesOf keys l ++ directivesOf keys l' := filterMap_append

theorem directivesOf_of_mem {d : Directive} (h : d.keyword.node ∈ keys) : directivesOf keys [.directive d] = [d] := by
  simp only [directivesOf, filterMap_cons, h, if_true, filterMap_nil]

theorem directivesOf_of_not_mem {d : Directive} (h : d.keyword.node ∉ keys) : directivesOf keys [.directive d] = [] := by
  simp only [directivesOf, filterMap_cons, h, if_false, filterMap_nil]

theorem directivesOf_eq_flatMap (keys : List Str) (body : List Stmt) :
    directivesOf keys body = body.flatMap (fun s => directivesOf keys [s]) := by
  induction body with
  | nil => rfl
  | cons s ss ih =>
    rw [flatMap_cons, ← ih]
    exact directivesOf_append keys [s] ss

/-- A setting that only the directives with one of the keywords change. -/
theorem foldl_setting {β γ : Type} {f : β → Stmt → β} {g : β → γ} {upd : γ → Directive → γ}
    (hdirective : ∀ b d, g (f b (.directive d)) = if d.keyword.node ∈ keys then upd (g b) d else g b)
    (hblock : ∀ b kw args body span, g (f b (.block kw args body span)) = g b)
    (hroute : ∀ b r, g (f b (.route r)) = g b) (body : List Stmt) (b : β) :
    g (body.foldl f b) = (directivesOf keys body).foldl upd (g b) := by
  rw [directivesOf_eq_flatMap]
  refine foldl_through (fun b s => ?_) body b
  cases s with
  | directive d =>
    rw [hdirective]
    split
    · rename_i hk
      rw [directivesOf_of_mem hk]
      rfl
    · rename_i hk
      rw [directivesOf_of_not_mem hk]
      rfl
  | block kw args body span => exact hblock b kw args body span
  | route r => exact hroute b r

/-- A setting that only the blocks of one kind change. -/
theorem foldl_blocks {β γ : Type} {f : β → Stmt → β} {g : β → Option γ} {kind : Str} {read : List Stmt → γ}
    (hdirective : ∀ b d, g (f b (.directive d)) = g b)
    (hblock : ∀ b kw args body span, g (f b (.block kw args body span)) = if kw.node = kind then some (read body) else g b)
    (hroute : ∀ b r, g (f b (.route r)) = g b) (body : List Stmt) (b : β) :
    g (body.foldl f b) = (blocks kind body).foldl (fun _ b => some (read b.body)) (g b) := by
  rw [blocks_eq_flatMap]
  refine foldl_through (fun b s => ?_) body b
  cases s with
  | block kw args body span =>
    rw [hblock]
    split
    · rename_i hk
      rw [blocks_of_eq hk]
      rfl
    · rename_i hk
      rw [blocks_of_ne hk]
      rfl
  | directive d => exact hdirective b d
  | route r => exact hroute b r

theorem mem_values_of_lastValue (h : lastValue keys body = some v) : v ∈ values keys body := by
  obtain ⟨d, hd, hv⟩ := bind_eq_some_iff.mp h
  exact mem_filterMap.mpr ⟨d, mem_of_getLast? hd, hv⟩

theorem foldl_lastValue {γ : Type} (upd : γ → Directive → γ) (h : lastValue keys body = some v) (c : γ) :
    ∃ d c', firstPositional d.args = some v ∧ (directivesOf keys body).foldl upd c = upd c' d := by
  obtain ⟨d, hd, hv⟩ := bind_eq_some_iff.mp h
  obtain ⟨ds, hds⟩ := getLast?_eq_some_iff.mp hd
  refine ⟨d, ds.foldl upd c, hv, ?_⟩
  rw [hds, foldl_append]
  rfl

end Folds

/-! ## How a directive changes a setting -/

section Updates

variable {keys : List Str} {body : List Stmt} {v : Value}

/-- An integer that is too large or negative is replaced. -/
def updInt (width default : Nat) (old : Nat) (d : Directive) : Nat :=
  match firstPositional d.args with
  | some (.int i) => (tryFrom width i).getD default
  | _ => old

def updSecs (old : Nat) (d : Directive) : Nat :=
  match firstPositional d.args with
  | some (.duration dur) => dur.secs
  | _ => old

def updStr (old : Str) (d : Directive) : Str := (firstPositionalStr d.args).getD old

def updStrs (_ : List Str) (d : Directive) : List Str := positionalStrArray d.args

theorem tryFrom_natCast {width n : Nat} (h : n < 2 ^ width) : tryFrom width n = some n := by
  have hcond : (0 : Int) ≤ n ∧ (n : Int) < 2 ^ width := ⟨Int.natCast_nonneg n, by exact_mod_cast h⟩
  rw [tryFrom, if_pos hcond, Int.toNat_natCast]

theorem updInt_lastValue {width default c : Nat} (ht : IsInt width v) (h : lastValue keys body = some v) :
    v = .int ((directivesOf keys body).foldl (updInt width default) c : Nat) := by
  obtain ⟨d, c', hv, hfold⟩ := foldl_lastValue (updInt width default) h c
  obtain ⟨n, hn, rfl⟩ := ht
  rw [hfold, updInt, hv]
  dsimp only
  rw [tryFrom_natCast hn, getD_some]

theorem updSecs_lastValue {c : Nat} {dur : Flow.Duration} (h : lastValue keys body = some (.duration dur)) :
    (directivesOf keys body).foldl updSecs c = dur.secs := by
  obtain ⟨d, c', hv, hfold⟩ := foldl_lastValue updSecs h c
  rw [hfold, updSecs, hv]

theorem updSecs_asWritten_iff {c : Nat} (ht : ∀ v ∈ values keys body, IsDuration v) :
    (∀ v, lastValue keys body = some v → v = .duration ⟨(directivesOf keys body).foldl updSecs c, 0⟩) ↔
      ∀ d, lastValue keys body = some (.duration d) → d.nanos = 0 := by
  constructor
  · intro h d hd
    exact congrArg Flow.Duration.nanos (Value.duration.inj (h _ hd))
  · intro h v hv
    obtain ⟨d, rfl⟩ := ht v (mem_values_of_lastValue hv)
    rw [updSecs_lastValue hv, ← h d hv]

theorem updStr_lastValue {c : Str} (ht : IsStr v) (h : lastValue keys body = some v) :
    v = .str ((directivesOf keys body).foldl updStr c) := by
  obtain ⟨d, c', hv, hfold⟩ := foldl_lastValue updStr h c
  obtain ⟨s, rfl⟩ := ht
  rw [hfold, updStr, firstPositionalStr_eq_some.mpr hv, getD_some]

theorem map_asStr {items : List (Spanned Value)} (h : ∀ i ∈ items, IsStr i.node) :
    items.map (·.node) = (items.filterMap (fun i => asStr i.node)).map .str := by
  induction items with
  | nil => rfl
  | cons i items ih =>
    obtain ⟨s, hs⟩ := h i mem_cons_self
    simp only [map_cons, filterMap_cons, hs, asStr, ih (fun j hj => h j (mem_cons_of_mem _ hj))]

theorem updStrs_lastValue {c : List Str} (ht : IsStrs v) (h : lastValue keys body = some v) :
    Lists v ((directivesOf keys body).foldl updStrs c) := by
  obtain ⟨d, c', hv, hfold⟩ := foldl_lastValue updStrs h c
  obtain ⟨items, rfl, hitems⟩ := ht
  rw [hfold, updStrs, positionalStrArray, hv]
  exact ⟨items, rfl, map_asStr hitems⟩

end Updates

/-! ## Retries -/

section Retries

variable {body : List Stmt}

/-- The step of `lowerRetry` for one condition. -/
def addCondition (r : Retry) (item : Spanned Value) : Retry :=
  match item.node with
  | .int i =>
    match tryFrom 16 i with
    | some s => { r with retryOnStatus := r.retryOnStatus ++ [s] }
    | none => r
  | .str s => if s = "connect_error" then { r with onConnectError := true } else r
  | _ => r

/-- The status a condition names. -/
def statusOf : Value → Option Nat
  | .int i => tryFrom 16 i
  | _ => none

theorem addCondition_spec (r : Retry) (item : Spanned Value) :
    (addCondition r item).attempts = r.attempts ∧
      (addCondition r item).retryOnStatus = r.retryOnStatus ++ (statusOf item.node).toList ∧
      (r.onConnectError → (addCondition r item).onConnectError) := by
  unfold addCondition
  cases item.node with
  | int i =>
    dsimp only [statusOf]
    cases tryFrom 16 i with
    | none => exact ⟨rfl, (append_nil _).symm, id⟩
    | some s => exact ⟨rfl, rfl, id⟩
  | str s =>
    dsimp only [statusOf]
    split
    · exact ⟨rfl, (append_nil _).symm, fun _ => rfl⟩
    · exact ⟨rfl, (append_nil _).symm, id⟩
  | _ => exact ⟨rfl, (append_nil _).symm, id⟩

theorem lowerRetry_attempts (body : List Stmt) :
    (lowerRetry body).attempts = (directivesOf ["attempts"] body).foldl (updInt 32 1) 1 := by
  refine foldl_setting (g := Retry.attempts) (fun r d => ?_) (fun _ _ _ _ _ => rfl) (fun _ _ => rfl) body _
  dsimp only
  simp only [mem_singleton]
  split_ifs
  · rw [updInt]
    cases firstPositional d.args with
    | none => rfl
    | some v => cases v <;> rfl
  · cases firstPositional d.args with
    | none => rfl
    | some v =>
      cases v with
      | array items => exact foldl_keeps (fun r i => (addCondition_spec r i).1) items r
      | _ => rfl
  · rfl

/-- What a value of `on` adds to the statuses. -/
def statusesOf : Value → List Nat
  | .array items => (items.map (·.node)).filterMap statusOf
  | _ => []

theorem foldl_addCondition (items : List (Spanned Value)) (r : Retry) :
    (items.foldl addCondition r).retryOnStatus = r.retryOnStatus ++ (items.map (·.node)).filterMap statusOf := by
  rw [foldl_collects (g := Retry.retryOnStatus) (fun r i => (addCondition_spec r i).2.1), filterMap_map,
    filterMap_eq_flatMap_toList]
  rfl

theorem lowerRetry_statuses (body : List Stmt) :
    (lowerRetry body).retryOnStatus = (values ["on"] body).flatMap statusesOf := by
  have hfold : (lowerRetry body).retryOnStatus = (directivesOf ["on"] body).foldl
      (fun ss d => ss ++ ((firstPositional d.args).toList.flatMap statusesOf)) [] := by
    refine foldl_setting (g := Retry.retryOnStatus) (fun r d => ?_) (fun _ _ _ _ _ => rfl) (fun _ _ => rfl) body _
    dsimp only
    simp only [mem_singleton]
    split_ifs with h1 h2
    · exact absurd (h1.symm.trans h2) (by decide)
    · cases firstPositional d.args with
      | none => rfl
      | some v => cases v <;> rfl
    · cases firstPositional d.args with
      | none => exact (append_nil _).symm
      | some v =>
        rw [toList_some, flatMap_singleton]
        cases v with
        | array items => exact foldl_addCondition items r
        | _ => exact (append_nil _).symm
    · rfl
  rw [hfold, ← flatMap_eq_foldl, values, filterMap_eq_flatMap_toList, flatMap_assoc]

theorem lowerRetry_onConnectError (body : List Stmt) : (lowerRetry body).onConnectError := by
  refine List.foldlRecOn (motive := fun r : Retry => r.onConnectError) body _ rfl (fun r hr stmt _ => ?_)
  cases stmt with
  | directive d =>
    dsimp only
    split
    · cases firstPositional d.args with
      | none => exact hr
      | some v => cases v <;> exact hr
    split
    · cases firstPositional d.args with
      | none => exact hr
      | some v =>
        cases v with
        | array items =>
          exact List.foldlRecOn (motive := fun r : Retry => r.onConnectError) items addCondition hr
            (fun r hr i _ => (addCondition_spec r i).2.2 hr)
        | _ => exact hr
    · exact hr
  | block kw args body span => exact hr
  | route r => exact hr

theorem filter_conditions {v : Value} (h : IsConditions v) :
    (itemsOf v).filter (fun v => !isConnectError v) = (statusesOf v).map (fun s : Nat => Value.int s) := by
  obtain ⟨items, rfl, hitems⟩ := h
  show (items.map (·.node)).filter _ = ((items.map (·.node)).filterMap statusOf).map _
  induction items with
  | nil => rfl
  | cons i items ih =>
    have ih := ih (fun j hj => hitems j (mem_cons_of_mem _ hj))
    rw [map_cons]
    rcases hitems i mem_cons_self with ⟨n, hn, hi⟩ | hi
    · have hstatus : statusOf i.node = some n := by
        rw [hi]
        exact tryFrom_natCast hn
      rw [filterMap_cons_some hstatus, filter_cons_of_pos (by rw [hi]; rfl), map_cons, ih, hi]
    · have hstatus : statusOf i.node = none := by
        cases hv : i.node with
        | int n =>
          rw [hv] at hi
          cases hi
        | _ => rfl
      rw [filterMap_cons_none hstatus, filter_cons_of_neg (by rw [hi]; decide), ih]

/-- A retry block is as written, but for what the typed one cannot say. -/
theorem retryAsWritten_iff (h : WellTypedRetry body) : RetryAsWritten body (lowerRetry body) ↔
    (values ["on"] body ≠ [] → ∃ v ∈ conditions body, isConnectError v) := by
  constructor
  · exact fun hw hne => (hw.connect hne).mp (lowerRetry_onConnectError body)
  · intro hconnect
    refine ⟨fun v hv => ?_, ?_, fun hne => iff_of_true (lowerRetry_onConnectError body) (hconnect hne)⟩
    · rw [lowerRetry_attempts]
      exact updInt_lastValue (h.attempts v (mem_values_of_lastValue hv)) hv
    · rw [lowerRetry_statuses, conditions, filter_flatMap, map_flatMap]
      exact flatMap_congr (fun v hv => filter_conditions (h.on v hv))

end Retries

/-! ## Breakers -/

section Breakers

variable {body : List Stmt}

theorem lowerBreaker_failures (body : List Stmt) : (lowerBreaker body).consecutiveFailures =
    (directivesOf ["min_requests", "consecutive"] body).foldl (updInt 32 5) 5 := by
  refine foldl_setting (g := Breaker.consecutiveFailures) (fun b d => ?_) (fun _ _ _ _ _ => rfl) (fun _ _ => rfl) body _
  dsimp only
  split_ifs <;> grind [updInt]

theorem lowerBreaker_openFor (body : List Stmt) :
    (lowerBreaker body).openForSecs = (directivesOf ["open_for"] body).foldl updSecs 15 := by
  refine foldl_setting (g := Breaker.openForSecs) (fun b d => ?_) (fun _ _ _ _ _ => rfl) (fun _ _ => rfl) body _
  dsimp only
  split_ifs <;> grind [updSecs]

theorem breakerAsWritten_iff (h : WellTypedBreaker body) : BreakerAsWritten body (lowerBreaker body) ↔
    ∀ d, lastValue ["open_for"] body = some (.duration d) → d.nanos = 0 := by
  have hopen := updSecs_asWritten_iff (c := 15) h.openFor
  rw [← lowerBreaker_openFor] at hopen
  constructor
  · exact fun hw => hopen.mp hw.openFor
  · intro hnanos
    refine ⟨fun v hv => ?_, hopen.mpr hnanos⟩
    rw [lowerBreaker_failures]
    exact updInt_lastValue (h.failures v (mem_values_of_lastValue hv)) hv

end Breakers

/-! ## Upstreams -/

section Upstreams

variable {env : Str → Option Str} {b : Block} (kw : Spanned Str) (args : List Arg) (body : List Stmt)

theorem lowerUpstream_policy :
    (lowerUpstream env kw args body).policy = (directivesOf ["policy"] body).foldl updStr "round_robin" := by
  refine foldl_setting (g := Upstream.policy) (fun u d => ?_) (fun u kw args body span => ?_) (fun _ _ => rfl) body _
  · dsimp only
    split_ifs <;> grind [updStr]
  · dsimp only
    split_ifs <;> rfl

theorem directives_eq (kind : Str) (body : List Stmt) : directives kind body = directivesOf [kind] body := by
  refine filterMap_congr (fun s _ => ?_)
  cases s with
  | directive d => simp only [mem_singleton]
  | block kw args body span => rfl
  | route r => rfl

theorem lowerUpstream_targets :
    (lowerUpstream env kw args body).targets = (directives "target" body).filterMap (fun d => lowerTarget env d.args) := by
  have hfold : (lowerUpstream env kw args body).targets =
      (directivesOf ["target"] body).foldl (fun ts d => ts ++ (lowerTarget env d.args).toList) [] := by
    refine foldl_setting (g := Upstream.targets) (fun u d => ?_) (fun u kw args body span => ?_) (fun _ _ => rfl) body _
    · dsimp only
      split_ifs <;> grind
    · dsimp only
      split_ifs <;> rfl
  rw [hfold, ← flatMap_eq_foldl, directives_eq, filterMap_eq_flatMap_toList]

theorem foldl_lastBlock {γ : Type} {read : Block → γ} {bs : List Block} {b : Block} (h : bs.getLast? = some b)
    (c : Option γ) : bs.foldl (fun _ b => some (read b)) c = some (read b) := by
  obtain ⟨bs', rfl⟩ := getLast?_eq_some_iff.mp h
  rw [foldl_append]
  rfl

theorem lowerUpstream_retry :
    (lowerUpstream env kw args body).retry = (blocks "retry" body).foldl (fun _ b => some (lowerRetry b.body)) none := by
  refine foldl_blocks (g := Upstream.retry) (fun u d => ?_) (fun u kw args body span => ?_) (fun _ _ => rfl) body _
  · dsimp only
    split_ifs <;> rfl
  · dsimp only
    split_ifs <;> grind

theorem lowerUpstream_breaker :
    (lowerUpstream env kw args body).breaker = (blocks "breaker" body).foldl (fun _ b => some (lowerBreaker b.body)) none := by
  refine foldl_blocks (g := Upstream.breaker) (fun u d => ?_) (fun u kw args body span => ?_) (fun _ _ => rfl) body _
  · dsimp only
    split_ifs <;> rfl
  · dsimp only
    split_ifs <;> grind

theorem lowerTarget_weight {args : List Arg} {target : Target} (h : lowerTarget env args = some target)
    (ht : ∀ v, namedValue args "weight" = some v → IsInt 32 v) :
    ∀ v, namedValue args "weight" = some v → v = .int target.weight := by
  intro v hv
  obtain ⟨n, hn, rfl⟩ := ht v hv
  obtain ⟨url, -, rfl⟩ := map_eq_some_iff.mp h
  dsimp only
  rw [hv]
  dsimp only
  rw [tryFrom_natCast hn, getD_some]

theorem lowerUpstream_weights (h : WellTypedUpstream b.body) :
    List.Forall₂ (fun d (t : Target) => ∀ v, namedValue d.args "weight" = some v → v = .int t.weight)
      ((directives "target" b.body).filter (fun d => ((firstPositional d.args).bind (resolveStr env)).isSome))
      (lowerUpstreamBlock env b).targets := by
  rw [lowerUpstreamBlock, lowerUpstream_targets, forall₂_filterMap_iff]
  · intro d _ hd
    obtain ⟨url, hurl⟩ := isSome_iff_exists.mp hd
    exact ⟨_, congrArg (Option.map _) hurl⟩
  · intro d hd t ht
    refine ⟨?_, lowerTarget_weight ht (h.weights d hd)⟩
    obtain ⟨url, hurl, -⟩ := map_eq_some_iff.mp ht
    rw [hurl]
    rfl

/-- An upstream is as written, but for what the typed one cannot say. -/
theorem upstreamAsWritten_iff (h : WellTypedUpstream b.body) : UpstreamAsWritten env b (lowerUpstreamBlock env b) ↔
    (∀ bb, (blocks "breaker" b.body).getLast? = some bb →
      ∀ d, lastValue ["open_for"] bb.body = some (.duration d) → d.nanos = 0) ∧
    ∀ rb, (blocks "retry" b.body).getLast? = some rb →
      values ["on"] rb.body ≠ [] → ∃ v ∈ conditions rb.body, isConnectError v := by
  have hretry : ∀ rb, (blocks "retry" b.body).getLast? = some rb →
      (lowerUpstreamBlock env b).retry = some (lowerRetry rb.body) ∧ WellTypedRetry rb.body := by
    intro rb hrb
    rw [lowerUpstreamBlock, lowerUpstream_retry]
    exact ⟨foldl_lastBlock hrb none, h.retries rb (mem_of_getLast? hrb)⟩
  have hbreaker : ∀ bb, (blocks "breaker" b.body).getLast? = some bb →
      (lowerUpstreamBlock env b).breaker = some (lowerBreaker bb.body) ∧ WellTypedBreaker bb.body := by
    intro bb hbb
    rw [lowerUpstreamBlock, lowerUpstream_breaker]
    exact ⟨foldl_lastBlock hbb none, h.breakers bb (mem_of_getLast? hbb)⟩
  constructor
  · intro hw
    refine ⟨fun bb hbb => ?_, fun rb hrb => ?_⟩
    · obtain ⟨br, hbr, hasw⟩ := hw.breaker bb hbb
      obtain ⟨heq, htyped⟩ := hbreaker bb hbb
      cases hbr.symm.trans heq
      exact (breakerAsWritten_iff htyped).mp hasw
    · obtain ⟨r, hr, hasw⟩ := hw.retry rb hrb
      obtain ⟨heq, htyped⟩ := hretry rb hrb
      cases hr.symm.trans heq
      exact (retryAsWritten_iff htyped).mp hasw
  · rintro ⟨hopen, hconnect⟩
    refine ⟨fun v hv => ?_, lowerUpstream_weights h, fun rb hrb => ?_, fun bb hbb => ?_⟩
    · rw [lowerUpstreamBlock, lowerUpstream_policy]
      exact updStr_lastValue (h.policy v (mem_values_of_lastValue hv)) hv
    · obtain ⟨heq, htyped⟩ := hretry rb hrb
      exact ⟨_, heq, (retryAsWritten_iff htyped).mpr (hconnect rb hrb)⟩
    · obtain ⟨heq, htyped⟩ := hbreaker bb hbb
      exact ⟨_, heq, (breakerAsWritten_iff htyped).mpr (hopen bb hbb)⟩

end Upstreams

/-! ## Caches -/

section Caches

variable {b : Block} (kw : Spanned Str) (args : List Arg) (body : List Stmt)

theorem lowerCache_defaultTtlSecs :
    (lowerCache kw args body).defaultTtlSecs = (directivesOf ["default_ttl"] body).foldl updSecs 60 := by
  refine foldl_setting (g := CacheDef.defaultTtlSecs) (fun c d => ?_) (fun _ _ _ _ _ => rfl) (fun _ _ => rfl) body _
  dsimp only
  split_ifs <;> grind [updSecs]

theorem lowerCache_methods :
    (lowerCache kw args body).methods = (directivesOf ["methods"] body).foldl updStrs ["GET", "HEAD"] := by
  refine foldl_setting (g := CacheDef.methods) (fun c d => ?_) (fun _ _ _ _ _ => rfl) (fun _ _ => rfl) body _
  dsimp only
  split_ifs <;> grind [updStrs]

theorem lowerCache_vary : (lowerCache kw args body).vary = (directivesOf ["vary"] body).foldl updStrs [] := by
  refine foldl_setting (g := CacheDef.vary) (fun c d => ?_) (fun _ _ _ _ _ => rfl) (fun _ _ => rfl) body _
  dsimp only
  split_ifs <;> grind [updStrs]

theorem lowerCache_swrSecs :
    (lowerCache kw args body).swrSecs = (directivesOf ["stale_while_revalidate"] body).foldl updSecs 0 := by
  refine foldl_setting (g := CacheDef.swrSecs) (fun c d => ?_) (fun _ _ _ _ _ => rfl) (fun _ _ => rfl) body _
  dsimp only
  split_ifs <;> grind [updSecs]

theorem cacheAsWritten_iff (h : WellTypedCache b.body) : CacheAsWritten b (lowerCacheBlock b) ↔
    (∀ d, lastValue ["default_ttl"] b.body = some (.duration d) → d.nanos = 0) ∧
      ∀ d, lastValue ["stale_while_revalidate"] b.body = some (.duration d) → d.nanos = 0 := by
  have httl := updSecs_asWritten_iff (c := 60) h.defaultTtl
  have hswr := updSecs_asWritten_iff (c := 0) h.swr
  rw [← lowerCache_defaultTtlSecs b.keyword b.args] at httl
  rw [← lowerCache_swrSecs b.keyword b.args] at hswr
  constructor
  · exact fun hw => ⟨httl.mp hw.defaultTtl, hswr.mp hw.swr⟩
  · rintro ⟨hnanos, hnanos'⟩
    refine ⟨httl.mpr hnanos, fun v hv => ?_, fun v hv => ?_, hswr.mpr hnanos'⟩
    · rw [lowerCacheBlock, lowerCache_methods]
      exact updStrs_lastValue (h.methods v (mem_values_of_lastValue hv)) hv
    · rw [lowerCacheBlock, lowerCache_vary]
      exact updStrs_lastValue (h.vary v (mem_values_of_lastValue hv)) hv

end Caches

/-! ## Firewalls -/

section Wafs

variable {b : Block} (kw : Spanned Str) (args : List Arg) (body : List Stmt)

theorem lowerWaf_mode : (lowerWaf kw args body).mode = (directivesOf ["mode"] body).foldl updStr "block" := by
  refine foldl_setting (g := WafDef.mode) (fun w d => ?_) (fun w kw args body span => ?_) (fun _ _ => rfl) body _
  · dsimp only
    split_ifs <;> grind [updStr]
  · dsimp only
    split
    · refine foldl_keeps (g := WafDef.mode) (fun w s => ?_) body w
      cases s with
      | directive d =>
        dsimp only
        split_ifs <;> rfl
      | block kw args body span => rfl
      | route r => rfl
    · rfl

theorem lowerIpRules_deny (body : List Stmt) (w : WafDef) :
    (lowerIpRules body w).ipDeny = (directivesOf ["deny"] body).foldl updStrs w.ipDeny := by
  refine foldl_setting (g := WafDef.ipDeny) (fun w d => ?_) (fun _ _ _ _ _ => rfl) (fun _ _ => rfl) body w
  dsimp only
  split_ifs <;> grind [updStrs]

theorem lowerIpRules_allow (body : List Stmt) (w : WafDef) :
    (lowerIpRules body w).ipAllow = (directivesOf ["allow"] body).foldl updStrs w.ipAllow := by
  refine foldl_setting (g := WafDef.ipAllow) (fun w d => ?_) (fun _ _ _ _ _ => rfl) (fun _ _ => rfl) body w
  dsimp only
  split_ifs <;> grind [updStrs]

theorem directivesOf_ipRules (keys : List Str) (body : List Stmt) :
    directivesOf keys (ipRules body) = body.flatMap (fun s => directivesOf keys (ipRules [s])) := by
  induction body with
  | nil => rfl
  | cons s ss ih =>
    have hcons : ipRules (s :: ss) = ipRules [s] ++ ipRules ss := by
      rw [ipRules, blocks_eq_flatMap, flatMap_cons, ← blocks_eq_flatMap, flatMap_append]
      rfl
    rw [flatMap_cons, ← ih, hcons, directivesOf_append]

theorem lowerWaf_rules {g : WafDef → List Str} {keys : List Str}
    (hrules : ∀ body w, g (lowerIpRules body w) = (directivesOf keys body).foldl updStrs (g w))
    (hmode : ∀ (w : WafDef) m, g { w with mode := m } = g w) :
    g (lowerWaf kw args body) = (directivesOf keys (ipRules body)).foldl updStrs (g (lowerWaf kw args [])) := by
  rw [directivesOf_ipRules]
  refine foldl_through (fun w s => ?_) body _
  cases s with
  | block kw args body span =>
    by_cases hk : kw.node = "ip"
    · rw [ipRules, blocks_of_eq hk, flatMap_singleton, ← hrules]
      exact congrArg g (if_pos hk)
    · rw [ipRules, blocks_of_ne hk]
      exact congrArg g (if_neg hk)
  | directive d =>
    dsimp only
    split
    · exact hmode w _
    · rfl
  | route r => rfl

theorem wafAsWritten (h : WellTypedWaf b.body) : WafAsWritten b (lowerWafBlock b) := by
  refine ⟨fun v hv => ?_, fun v hv => ?_, fun v hv => ?_⟩
  · rw [lowerWafBlock, lowerWaf_mode]
    exact updStr_lastValue (h.mode v (mem_values_of_lastValue hv)) hv
  · rw [lowerWafBlock, lowerWaf_rules _ _ _ lowerIpRules_deny (fun _ _ => rfl)]
    exact updStrs_lastValue (h.deny v (mem_values_of_lastValue hv)) hv
  · rw [lowerWafBlock, lowerWaf_rules _ _ _ lowerIpRules_allow (fun _ _ => rfl)]
    exact updStrs_lastValue (h.allow v (mem_values_of_lastValue hv)) hv

end Wafs

/-! ## Documents -/

section Documents

variable {env : Str → Option Str} {ast : Ast}

theorem lower_flowVersion (ast : Ast) : (lower env ast).1.flowVersion =
    (directivesOf ["flow_version"] ast.stmts).foldl (fun old d => (firstPositionalStr d.args).or old) none := by
  refine foldl_setting (g := fun acc : Config × List Flow.Diagnostic => acc.1.flowVersion) (fun acc d => ?_)
    (fun acc kw args body span => ?_) (fun _ _ => rfl) ast.stmts _
  · dsimp only [lowerStmt]
    simp only [mem_singleton]
    split_ifs
    · cases firstPositionalStr d.args <;> rfl
    · rfl
  · dsimp only [lowerStmt]
    split_ifs <;> rfl

/-- Well typed settings are as written, but for what the typed configuration cannot say. -/
theorem asWritten_iff (h : WellTyped ast) : AsWritten env ast (lower env ast).1 ↔ Expressible ast := by
  have hups : ∀ b ∈ blocks "upstream" ast.stmts, UpstreamAsWritten env b (lowerUpstreamBlock env b) ↔ _ :=
    fun b hb => upstreamAsWritten_iff (h.upstreams b hb)
  have hcaches : ∀ b ∈ blocks "cache" ast.stmts, CacheAsWritten b (lowerCacheBlock b) ↔ _ :=
    fun b hb => cacheAsWritten_iff (h.caches b hb)
  constructor
  · rintro ⟨-, hu, hc, -⟩
    rw [lower_upstreams, forall₂_map_right_iff, forall₂_same] at hu
    rw [lower_caches, forall₂_map_right_iff, forall₂_same] at hc
    exact ⟨fun b hb => ((hups b hb).mp (hu b hb)).1, fun b hb => ((hups b hb).mp (hu b hb)).2,
      fun b hb => ((hcaches b hb).mp (hc b hb)).1, fun b hb => ((hcaches b hb).mp (hc b hb)).2⟩
  · rintro ⟨hopen, hconnect, httl, hswr⟩
    refine ⟨fun v hv => ?_, ?_, ?_, ?_⟩
    · obtain ⟨s, rfl⟩ := h.version v (mem_values_of_lastValue hv)
      obtain ⟨d, c', hd, hfold⟩ := foldl_lastValue (fun old d => (firstPositionalStr d.args).or old) hv none
      rw [lower_flowVersion, hfold, firstPositionalStr_eq_some.mpr hd]
      rfl
    · rw [lower_upstreams, forall₂_map_right_iff, forall₂_same]
      exact fun b hb => (hups b hb).mpr ⟨hopen b hb, hconnect b hb⟩
    · rw [lower_caches, forall₂_map_right_iff, forall₂_same]
      exact fun b hb => (hcaches b hb).mpr ⟨httl b hb, hswr b hb⟩
    · rw [lower_wafs, forall₂_map_right_iff, forall₂_same]
      exact fun b hb => wafAsWritten (h.wafs b hb)

end Documents

end Pulsate.Conf
