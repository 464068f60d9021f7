import Pulsate.Proxy.Lemmas.Breaker
import Pulsate.Proxy.Retry

/-!
# Lemmas about tries
-/

namespace Pulsate.Proxy

open List Lib Upstream
open Lib (Permits run)

variable {up : Upstream} {wire : Wire} {req : Forwarding} {health h : Health} {hash : Option IpAddr → UInt64}
  {clientIp : Option IpAddr} {now : Nat → Nat} {i k : Nat}

variable {l : List Nat} {sent : Sent} {h' : Health}

/-! ## Picking -/

theorem mem_eligible : i ∈ up.eligible now health ↔ i < up.backends.length ∧ health.isEjected i (now i) = false := by
  simp [eligible]

theorem targetUrl_of_mem (hi : i ∈ up.eligible now health) : ∃ base, up.targetUrl i = some base := by
  rw [targetUrl, getElem?_eq_getElem (mem_eligible.mp hi).1]
  exact ⟨_, rfl⟩

theorem pairwise_eligible (up : Upstream) (now : Nat → Nat) (health : Health) : (up.eligible now health).Pairwise (· < ·) :=
  pairwise_lt_range.filter _

theorem targets_pick (up : Upstream) (hash : Option IpAddr → UInt64) (clientIp : Option IpAddr) (now : Nat → Nat)
    (health : Health) : (up.pick hash clientIp now health).2.targets = health.targets := by
  unfold pick
  dsimp only
  split
  · rfl
  · split <;> rfl

theorem pick_eq_none : (up.pick hash clientIp now health).1 = none ↔ up.eligible now health = [] := by
  unfold pick
  dsimp only
  split
  · rename_i hnone
    exact iff_of_true rfl hnone
  · rename_i hsome
    have hpos := length_pos_of_ne_nil hsome
    refine iff_of_false ?_ hsome
    split
    · exact (getElem?_eq_none_iff.not.mpr (Nat.not_le.mpr (Nat.mod_lt _ hpos)))
    · exact argmin_eq_none.not.mpr hsome
    · exact (getElem?_eq_none_iff.not.mpr (Nat.not_le.mpr (Nat.mod_lt _ hpos)))
    · exact (getElem?_eq_none_iff.not.mpr (Nat.not_le.mpr (Nat.mod_lt _ hpos)))

theorem mem_eligible_of_pick (hpick : (up.pick hash clientIp now health).1 = some i) : i ∈ up.eligible now health := by
  unfold pick at hpick
  dsimp only at hpick
  split at hpick
  · cases hpick
  · split at hpick
    · exact mem_of_getElem? hpick
    · exact argmin_mem hpick
    · exact mem_of_getElem? hpick
    · exact mem_of_getElem? hpick

theorem getElem?_eq_some_iff_idxOf (hl : l.Pairwise (· < ·)) (hi : i ∈ l) (hk : k < l.length) :
    l[k]? = some i ↔ k = l.idxOf i := by
  have hnodup : l.Nodup := hl.imp Nat.ne_of_lt
  rw [getElem?_eq_some_iff]
  constructor
  · rintro ⟨hk, rfl⟩
    exact (hnodup.idxOf_getElem k hk).symm
  · rintro rfl
    exact ⟨hk, getElem_idxOf hk⟩

theorem idxOf_le_idxOf (hl : l.Pairwise (· < ·)) {j : Nat} (hi : i ∈ l) (hj : j ∈ l) : l.idxOf i ≤ l.idxOf j ↔ i ≤ j := by
  have hi' := idxOf_lt_length_iff.mpr hi
  have hj' := idxOf_lt_length_iff.mpr hj
  have hlt := pairwise_iff_getElem.mp hl
  constructor
  · intro hle
    rcases Nat.lt_or_eq_of_le hle with h | h
    · have := hlt _ _ hi' hj' h
      rw [getElem_idxOf, getElem_idxOf] at this
      exact this.le
    · exact ((idxOf_inj hi).mp h).le
  · intro hle
    by_contra hnot
    have := hlt _ _ hj' hi' (Nat.not_le.mp hnot)
    rw [getElem_idxOf, getElem_idxOf] at this
    omega

theorem argmin_ne_iff (hl : l.Pairwise (· < ·)) (hi : i ∈ l) (f : Nat → Nat) :
    l.argmin f ≠ some i ↔ ∃ j ∈ l, f j < f i ∨ f j = f i ∧ j < i := by
  rw [Ne, ← Option.mem_def, mem_argmin_iff]
  simp only [hi, true_and, not_and_or, not_forall, not_le, exists_prop]
  constructor
  · rintro (⟨j, hj, hlt⟩ | ⟨j, hj, hle, hidx⟩)
    · exact ⟨j, hj, .inl hlt⟩
    · rw [← Nat.not_le, idxOf_le_idxOf hl hi hj, Nat.not_le] at hidx
      rcases Nat.lt_or_eq_of_le hle with hlt | heq
      · exact ⟨j, hj, .inl hlt⟩
      · exact ⟨j, hj, .inr ⟨heq, hidx⟩⟩
  · rintro ⟨j, hj, hlt | ⟨heq, hlt⟩⟩
    · exact .inl ⟨j, hj, hlt⟩
    · refine .inr ⟨j, hj, heq.le, ?_⟩
      rw [← Nat.not_le, idxOf_le_idxOf hl hi hj, Nat.not_le]
      exact hlt

theorem pick_ne_iff (hne : up.eligible now health ≠ []) : (up.pick hash clientIp now health).1 ≠ some i ↔
    i ∉ up.eligible now health ∨ up.PassesOver (hash clientIp) (up.eligible now health) health i := by
  by_cases hi : i ∈ up.eligible now health
  · rw [or_iff_right (not_not_intro hi)]
    have hsorted := pairwise_eligible up now health
    have hrank := fun n => (getElem?_eq_some_iff_idxOf hsorted hi (Nat.mod_lt n (length_pos_of_ne_nil hne))).not
    unfold pick PassesOver
    cases up.policy with
    | roundRobin => simpa [hne] using hrank _
    | leastConn => simpa [hne] using argmin_ne_iff hsorted hi _
    | random => simpa [hne] using hrank _
    | ipHash => simpa [hne] using hrank _
  · exact iff_of_true (fun h => hi (mem_eligible_of_pick h)) (.inl hi)

/-! ## Going round -/

theorem rr_change (f : TargetState → TargetState) : (up.change f i health).rr = health.rr := by
  unfold change
  split <;> rfl

theorem rr_act {a : Act} (h : ∀ clientIp now, a ≠ .pick clientIp now) : (up.act hash health a).rr = health.rr := by
  cases a with
  | pick clientIp now => exact absurd rfl (h clientIp now)
  | record r =>
    rw [act, record]
    split <;> exact rr_change _
  | inflightInc i => exact rr_change _
  | inflightDec i => exact rr_change _

theorem picks_cons {a : Act} (h : ∀ clientIp now, a ≠ .pick clientIp now) (acts : List Act) :
    up.picks hash health (a :: acts) = up.picks hash (up.act hash health a) acts := by
  cases a with
  | pick clientIp now => exact absurd rfl (h clientIp now)
  | record | inflightInc | inflightDec => rfl

/-- The picks go round the targets, from the counter on. -/
theorem picks_eq (hpolicy : up.policy = .roundRobin) {targets : List Nat} (hne : targets ≠ []) {acts : List Act}
    (hsees : Permits (up.Sees targets) (up.act hash) health acts)
    (hroom : health.rr.toNat + (up.picks hash health acts).length ≤ 2 ^ 64) :
    up.picks hash health acts = (List.range (up.picks hash health acts).length).map
      (fun k => targets[(health.rr.toNat + k) % targets.length]?) := by
  induction acts generalizing health with
  | nil => rfl
  | cons a acts ih =>
    obtain ⟨hsee, hsees⟩ := hsees
    by_cases hpick : ∃ clientIp now, a = .pick clientIp now
    · obtain ⟨clientIp, now, rfl⟩ := hpick
      have hpick : up.pick hash clientIp now health =
          (targets[health.rr.toNat % targets.length]?, { health with rr := health.rr + 1 }) := by
        unfold pick
        simp only [show up.eligible now health = targets from hsee, hne, if_false, hpolicy]
      rw [act, hpick] at hsees
      simp only [picks, hpick, length_cons] at hroom ⊢
      by_cases hlast : up.picks hash { health with rr := health.rr + 1 } acts = []
      · simp [hlast]
      · have hrest := length_pos_iff.mpr hlast
        have hnext : (health.rr + 1).toNat = health.rr.toNat + 1 := by
          rw [UInt64.toNat_add]
          exact Nat.mod_eq_of_lt (by simpa using (by omega : health.rr.toNat + 1 < 2 ^ 64))
        have htail := ih hsees (by simpa only [hnext] using (by omega))
        rw [range_succ_eq_map, map_cons, map_map, Nat.add_zero]
        congr 1
        refine htail.trans (map_congr_left (fun k _ => ?_))
        simp only [Function.comp_apply, hnext, Nat.succ_eq_add_one, Nat.add_assoc, Nat.add_comm 1 k]
    · simp only [not_exists] at hpick
      have hrr := @rr_act up health hash a hpick
      rw [picks_cons hpick, ← hrr] at hroom ⊢
      exact ih hsees hroom

theorem nodup_of_sees {targets : List Nat} {acts : List Act} (hsees : Permits (up.Sees targets) (up.act hash) health acts)
    (hpicks : up.picks hash health acts ≠ []) : targets.Nodup := by
  induction acts generalizing health with
  | nil => exact absurd rfl hpicks
  | cons a acts ih =>
    obtain ⟨hsee, hsees⟩ := hsees
    by_cases hpick : ∃ clientIp now, a = .pick clientIp now
    · obtain ⟨clientIp, now, rfl⟩ := hpick
      rw [← show up.eligible now health = targets from hsee]
      exact (pairwise_eligible up now health).imp Nat.ne_of_lt
    · simp only [not_exists] at hpick
      rw [picks_cons hpick] at hpicks
      exact ih hsees hpicks

/-! ## Tries -/

theorem choose_eq_ok {request : Outgoing} (hchoose : (up.choose wire req k h).1 = .ok (i, request)) :
    (up.pick wire.hash req.clientIp (wire.pickAt k) h).1 = some i ∧
      ∃ base, up.targetUrl i = some base ∧ buildRequest wire.parses req base = some request := by
  unfold Upstream.choose at hchoose
  split at hchoose
  · cases hchoose
  · rename_i j _ hpick
    split at hchoose
    · cases hchoose
    · rename_i base hbase
      split at hchoose
      · cases hchoose
      · rename_i hrequest
        cases hchoose
        exact ⟨congrArg Prod.fst hpick, base, hbase, hrequest⟩

theorem choose_of_pick {base : Str} (hpick : (up.pick wire.hash req.clientIp (wire.pickAt k) h).1 = some i)
    (hbase : up.targetUrl i = some base) (hparses : wire.parses (base ++ req.pathAndQuery)) :
    ∃ request, (up.choose wire req k h).1 = .ok (i, request) := by
  unfold Upstream.choose
  generalize up.pick wire.hash req.clientIp (wire.pickAt k) h = picked at hpick
  obtain ⟨_, h'⟩ := picked
  cases hpick
  simp [hbase, buildRequest, hparses]

theorem targets_choose (up : Upstream) (wire : Wire) (req : Forwarding) (k : Nat) (h : Health) :
    (up.choose wire req k h).2.targets = h.targets := by
  have htargets := targets_pick up wire.hash req.clientIp (wire.pickAt k) h
  unfold Upstream.choose
  generalize up.pick wire.hash req.clientIp (wire.pickAt k) h = picked at htargets
  obtain ⟨_ | i, h'⟩ := picked
  · exact htargets
  · dsimp only
    split
    · exact htargets
    · split <;> exact htargets

theorem targets_inflight : (up.inflightDec i (up.inflightInc i h)).targets = h.targets := by
  unfold inflightDec inflightInc change
  split
  · simp [Health.set]
  · rfl

theorem settle_eq (sent : Sent) : up.settle sent h =
    if up.retry.retries sent.outcome then .again sent (up.record h (sent.record up.retry))
    else .final sent sent.outcome.reply (up.record h (sent.record up.retry)) := by
  unfold settle record Sent.record
  cases sent.outcome with
  | answered answer =>
    by_cases hlisted : answer.status ∈ up.retry.retryOnStatus <;>
      simp [RetryPolicy.retries, RetryPolicy.fails, Outcome.reply, hlisted]
  | failed connected => simp [RetryPolicy.retries, RetryPolicy.fails, Outcome.reply]

theorem attempt_cases (up : Upstream) (wire : Wire) (req : Forwarding) (k : Nat) (h : Health) :
    (∃ resp, (up.choose wire req k h).1 = .error resp ∧ up.attempt wire req k h = .refused resp (up.choose wire req k h).2) ∨
    ∃ sent h', (∃ i request, (up.choose wire req k h).1 = .ok (i, request) ∧
        sent = ⟨i, request, wire.outcome k, wire.recordAt k⟩) ∧ h'.targets = h.targets ∧
      (up.retry.retries (wire.outcome k) ∧ up.attempt wire req k h = .again sent (up.record h' (sent.record up.retry)) ∨
        up.retry.retries (wire.outcome k) = false ∧
          up.attempt wire req k h = .final sent (wire.outcome k).reply (up.record h' (sent.record up.retry))) := by
  have htargets := targets_choose up wire req k h
  unfold attempt
  generalize up.choose wire req k h = chosen at htargets
  obtain ⟨resp | ⟨i, request⟩, h'⟩ := chosen
  · exact .inl ⟨resp, rfl, rfl⟩
  · refine .inr ⟨⟨i, request, wire.outcome k, wire.recordAt k⟩, up.inflightDec i (up.inflightInc i h'), ⟨i, request, rfl, rfl⟩,
      targets_inflight.trans htargets, ?_⟩
    dsimp only
    rw [settle_eq]
    cases up.retry.retries (wire.outcome k) with
    | true => exact .inl ⟨rfl, rfl⟩
    | false => exact .inr ⟨rfl, rfl⟩

theorem sent_attempt : (up.attempt wire req k h).sent = some sent ↔
    ∃ i request, (up.choose wire req k h).1 = .ok (i, request) ∧ sent = ⟨i, request, wire.outcome k, wire.recordAt k⟩ := by
  rcases attempt_cases up wire req k h with ⟨resp, hchoose, heq⟩ | ⟨_, h', ⟨i, request, hchoose, rfl⟩, -, ⟨-, heq⟩ | ⟨-, heq⟩⟩
  · simp [heq, hchoose, Lib.Try.sent]
  · simp [heq, hchoose, Lib.Try.sent, eq_comm]
  · simp [heq, hchoose, Lib.Try.sent, eq_comm]

theorem next_attempt (hnext : (up.attempt wire req k h).next = some h') :
    up.retry.retries (wire.outcome k) ∧ ∃ sent, (up.attempt wire req k h).sent = some sent := by
  rcases attempt_cases up wire req k h with ⟨resp, -, heq⟩ | ⟨sent, h', -, -, ⟨hretries, heq⟩ | ⟨-, heq⟩⟩
  · rw [heq] at hnext
    cases hnext
  · rw [heq]
    exact ⟨hretries, sent, rfl⟩
  · rw [heq] at hnext
    cases hnext

theorem attempt_refused {resp : Http.Response} (heq : up.attempt wire req k h = .refused resp h') :
    (up.choose wire req k h).1 = .error resp := by
  rcases attempt_cases up wire req k h with ⟨resp, hchoose, htry⟩ | ⟨sent, h', -, -, ⟨-, htry⟩ | ⟨-, htry⟩⟩
  · cases heq.symm.trans htry
    exact hchoose
  · cases heq.symm.trans htry
  · cases heq.symm.trans htry

theorem attempt_final {resp : Http.Response} (heq : up.attempt wire req k h = .final sent resp h') :
    up.retry.retries (wire.outcome k) = false ∧ resp = (wire.outcome k).reply := by
  rcases attempt_cases up wire req k h with ⟨resp, -, htry⟩ | ⟨sent, h', -, -, ⟨-, htry⟩ | ⟨hretries, htry⟩⟩
  · cases heq.symm.trans htry
  · cases heq.symm.trans htry
  · cases heq.symm.trans htry
    exact ⟨hretries, rfl⟩

theorem state_attempt_none (hsent : (up.attempt wire req k h).sent = none) :
    (up.attempt wire req k h).state.targets = h.targets := by
  rcases attempt_cases up wire req k h with ⟨resp, -, heq⟩ | ⟨sent, h', -, -, ⟨-, heq⟩ | ⟨-, heq⟩⟩
  · rw [heq]
    exact targets_choose up wire req k h
  · rw [heq] at hsent
    cases hsent
  · rw [heq] at hsent
    cases hsent

theorem state_attempt_some (hsent : (up.attempt wire req k h).sent = some sent) :
    ∃ h', h'.targets = h.targets ∧ (up.attempt wire req k h).state = up.record h' (sent.record up.retry) := by
  rcases attempt_cases up wire req k h with ⟨resp, -, heq⟩ | ⟨sent, h', -, htargets, ⟨-, heq⟩ | ⟨-, heq⟩⟩
  · rw [heq] at hsent
    cases hsent
  · rw [heq] at hsent ⊢
    cases hsent
    exact ⟨h', htargets, rfl⟩
  · rw [heq] at hsent ⊢
    cases hsent
    exact ⟨h', htargets, rfl⟩

/-! ## Calls -/

theorem before_succ : up.before wire req health (k + 1) = some h' ↔
    ∃ h, up.before wire req health k = some h ∧ (up.attempt wire req k h).next = some h' := by
  rw [Upstream.before, Lib.before_succ, Option.bind_eq_some_iff, Nat.zero_add]
  rfl

theorem retries_of_before {m : Nat} (hbefore : up.before wire req health m = some h) (hk : k < m) :
    up.retry.retries (wire.outcome k) ∧
      ∃ h' sent, up.before wire req health k = some h' ∧ (up.attempt wire req k h').sent = some sent := by
  induction m generalizing h with
  | zero => cases hk
  | succ m ih =>
    obtain ⟨h', hbefore', hnext⟩ := before_succ.mp hbefore
    rcases Nat.lt_succ_iff_lt_or_eq.mp hk with hk | rfl
    · exact ih hbefore' hk
    · obtain ⟨hretries, sent, hsent⟩ := next_attempt hnext
      exact ⟨hretries, h', sent, hbefore', hsent⟩

theorem sent_forward : (up.forward wire req health).sent[k]? = some sent ↔
    k < max up.retry.attempts 1 ∧ ∃ h, up.before wire req health k = some h ∧ (up.attempt wire req k h).sent = some sent := by
  rw [forward, sent_tries_eq_some, Nat.zero_add]
  rfl

theorem outcome_of_sent (hsent : (up.forward wire req health).sent[k]? = some sent) : sent.outcome = wire.outcome k := by
  obtain ⟨-, h, -, hattempt⟩ := sent_forward.mp hsent
  obtain ⟨i, request, -, rfl⟩ := sent_attempt.mp hattempt
  rfl

theorem forward_cases (up : Upstream) (wire : Wire) (req : Forwarding) (health : Health) :
    (∃ m h resp, m < max up.retry.attempts 1 ∧ up.before wire req health m = some h ∧
      (up.choose wire req m h).1 = .error resp ∧ (up.forward wire req health).result = resp ∧
      (up.forward wire req health).sent.length = m) ∨
    (∃ m h, m < max up.retry.attempts 1 ∧ up.before wire req health m = some h ∧
      up.retry.retries (wire.outcome m) = false ∧ (up.forward wire req health).result = (wire.outcome m).reply ∧
      (up.forward wire req health).sent.length = m + 1) ∨
    (∃ h, up.before wire req health (max up.retry.attempts 1) = some h ∧
      (up.forward wire req health).result = errorResponse .retryExhausted ∧
      (up.forward wire req health).sent.length = max up.retry.attempts 1) := by
  rcases tries_cases (up.attempt wire req) (errorResponse .retryExhausted) (max up.retry.attempts 1) 0 health with
    ⟨m, h, hm, hbefore, hresult, -, hlength⟩ | ⟨hbefore, hresult, hlength⟩
  · rw [Nat.zero_add] at hresult hlength
    rcases attempt_cases up wire req m h with ⟨resp, hchoose, heq⟩ | ⟨sent, h', -, -, ⟨-, heq⟩ | ⟨hretries, heq⟩⟩
    · rw [heq] at hresult hlength
      exact .inl ⟨m, h, resp, hm, hbefore, hchoose, (Option.some.inj hresult).symm, hlength⟩
    · rw [heq] at hresult
      cases hresult
    · rw [heq] at hresult hlength
      exact .inr (.inl ⟨m, h, hm, hbefore, hretries, (Option.some.inj hresult).symm, hlength⟩)
  · exact .inr (.inr ⟨_, hbefore, hresult, hlength⟩)

theorem recorded_forward (up : Upstream) (wire : Wire) (req : Forwarding) (health : Health) :
    (up.forward wire req health).state.targets =
      (run up.record health ((up.forward wire req health).sent.map (Sent.record up.retry))).targets := by
  refine tries_history (I := fun xs (h : Health) => h.targets = (run up.record health (xs.map (Sent.record up.retry))).targets)
    (fun xs k h hxs hnone => ?_) (fun xs k h sent hxs hsent => ?_) [] rfl
  · rw [state_attempt_none hnone, hxs]
  · obtain ⟨h', htargets, hstate⟩ := state_attempt_some hsent
    rw [hstate, map_append, map_singleton, run_concat]
    funext i
    exact record_congr (congrFun (htargets.trans hxs) i) _

/-- The addresses are URIs exactly if no try within the budget gives up, where there is always a target to pick. -/
theorem addressable_iff (heligible : up.StaysEligible wire req health) : up.Addressable wire req health ↔
    ∀ k < max up.retry.attempts 1, ∀ h, up.before wire req health k = some h →
      ∃ i request, (up.choose wire req k h).1 = .ok (i, request) := by
  constructor
  · intro haddress k hk h hbefore
    obtain ⟨i, hpick⟩ : ∃ i, (up.pick wire.hash req.clientIp (wire.pickAt k) h).1 = some i :=
      Option.ne_none_iff_exists'.mp (pick_eq_none.not.mpr (heligible k (by omega) h hbefore))
    obtain ⟨base, hbase⟩ := targetUrl_of_mem (mem_eligible_of_pick hpick)
    exact ⟨i, choose_of_pick hpick hbase (haddress k hk h i base hbefore hpick hbase)⟩
  · intro hok k hk h i base hbefore hpick hbase
    obtain ⟨j, request, hchoose⟩ := hok k hk h hbefore
    obtain ⟨hpick', base', hbase', hrequest⟩ := choose_eq_ok hchoose
    cases hpick.symm.trans hpick'
    cases hbase.symm.trans hbase'
    rw [buildRequest, Option.ite_none_right_eq_some] at hrequest
    exact hrequest.1

theorem result_of_sent (hsent : (up.forward wire req health).sent[k]? = some sent)
    (hretries : up.retry.retries sent.outcome = false) : (up.forward wire req health).result = sent.outcome.reply := by
  have hlt := (List.getElem?_eq_some_iff.mp hsent).1
  rw [outcome_of_sent hsent] at hretries ⊢
  have hnot : ∀ {m h}, up.before wire req health m = some h → ¬ k < m := fun hbefore hk => by
    rw [(retries_of_before hbefore hk).1] at hretries
    cases hretries
  rcases forward_cases up wire req health with ⟨m, h, resp, -, hbefore, -, -, hlength⟩ | ⟨m, h, -, hbefore, -, hresult, hlength⟩ |
    ⟨h, hbefore, -, hlength⟩
  · exact absurd (hlength ▸ hlt) (hnot hbefore)
  · have hm : k = m := by
      have := hnot hbefore
      omega
    rw [hresult, hm]
  · exact absurd (hlength ▸ hlt) (hnot hbefore)

theorem ends_iff {answer : Answer} : up.Ends wire req health k answer ↔ ∃ sent, (up.forward wire req health).sent[k]? = some sent ∧
    sent.outcome = .answered answer ∧ answer.status ∉ up.retry.retryOnStatus := by
  constructor
  · rintro ⟨hk, ⟨h, i, request, hbefore, hchoose⟩, hanswered, hfinal⟩
    exact ⟨_, sent_forward.mpr ⟨hk, h, hbefore, sent_attempt.mpr ⟨i, request, hchoose, rfl⟩⟩, hanswered, hfinal⟩
  · rintro ⟨sent, hsent, hanswered, hfinal⟩
    rw [outcome_of_sent hsent] at hanswered
    obtain ⟨hk, h, hbefore, hattempt⟩ := sent_forward.mp hsent
    obtain ⟨i, request, hchoose, -⟩ := sent_attempt.mp hattempt
    exact ⟨hk, ⟨h, i, request, hbefore, hchoose⟩, hanswered, hfinal⟩

theorem result_of_ends {answer : Answer} (h : up.Ends wire req health k answer) :
    (up.forward wire req health).result = normalizeResponse answer := by
  obtain ⟨sent, hsent, houtcome, hfinal⟩ := ends_iff.mp h
  rw [result_of_sent hsent (by simpa [houtcome, RetryPolicy.retries] using hfinal), houtcome]
  rfl

theorem headers_of_sent (hmem : sent ∈ (up.forward wire req health).sent) : sent.request.headers = req.outHeaders := by
  obtain ⟨k, hsent⟩ := mem_iff_getElem?.mp hmem
  obtain ⟨-, h, -, hattempt⟩ := sent_forward.mp hsent
  obtain ⟨i, request, hchoose, rfl⟩ := sent_attempt.mp hattempt
  obtain ⟨-, base, -, hrequest⟩ := choose_eq_ok hchoose
  rw [buildRequest, Option.ite_none_right_eq_some] at hrequest
  rw [← Option.some.inj hrequest.2]

end Pulsate.Proxy
