import Mathlib.Data.List.Rotate
import Pulsate.Proxy.Lemmas.Concurrent
import Pulsate.Proxy.Lemmas.Hop

/-!
# Results about upstream pools
-/

namespace Pulsate.Proxy

open List Lib
open Http (HeaderMap HeaderName HeaderValue)
open Lib (run)

/-! ## The breaker -/

/-- A target is ejected exactly as long as the time lasts after the last failure whose place in its streak is a multiple of the
threshold, unless it has succeeded since. What happens to other targets does not count. -/
theorem ejected_iff (up : Upstream) (records : List Record) (i t : Nat) (hi : i < up.backends.length)
    (htime : ∀ r ∈ records, r.now ≤ t) :
    ((run up.record .new records).isEjected i t ↔ ∃ pre r post, records = pre ++ r :: post ∧ Trips up i pre r ∧
      r.now ≤ t ∧ t < r.now + up.breaker.openFor.nanos ∧ (∀ s ∈ post, s.target = i → s.failed) ∧
      ∀ pre' r' post', post = pre' ++ r' :: post' → ¬ Trips up i (pre ++ r :: pre') r') ∧
    (run up.record .new records).targets i = (run up.record .new (recordsOf i records)).targets i := by
  refine ⟨?_, run_recordsOf i records⟩
  rw [Health.isEjected, Option.any_eq_true]
  simp only [decide_eq_true_eq, (isSlot_ejectedUntil hi).run_iff (s := .new) rfl]
  constructor
  · rintro ⟨deadline, ⟨pre, r, post, rfl, hput⟩, hlt⟩
    obtain ⟨htrips, rfl⟩ := (newDeadline_run hi pre r deadline).mp hput.put
    have hkept := permits_iff.mp hput.kept
    refine ⟨pre, r, post, rfl, htrips, htime r (by simp), hlt, ?_, ?_⟩
    · intro s hs htarget
      obtain ⟨pre', post', rfl⟩ := append_of_mem hs
      have hnot := (hkept pre' s post' rfl).2
      simpa [htarget] using hnot
    · rintro pre' r' post' rfl htrips'
      have hnone := (hkept pre' r' post' rfl).1
      rw [run_split, (newDeadline_run hi _ r' _).mpr ⟨htrips', rfl⟩] at hnone
      cases hnone
  · rintro ⟨pre, r, post, rfl, htrips, -, hlt, hnosuccess, hlast⟩
    refine ⟨_, ⟨pre, r, post, rfl, (newDeadline_run hi pre r _).mpr ⟨htrips, rfl⟩, permits_iff.mpr ?_⟩, hlt⟩
    rintro pre' s post' rfl
    refine ⟨?_, fun hdrop => ?_⟩
    · rw [run_split]
      refine Option.eq_none_iff_forall_not_mem.mpr (fun deadline hdeadline => ?_)
      exact hlast pre' s post' rfl ((newDeadline_run hi _ s deadline).mp hdeadline).1
    · have hfailed := hnosuccess s (by simp) hdrop.1
      rw [hdrop.2] at hfailed
      cases hfailed

/-- Two targets, of which one fails twice. -/
def sampleUpstream (policy : Policy) (retry : RetryPolicy) (threshold : Nat) : Upstream :=
  .new "pool" [("http://a.test", 1), ("http://b.test", 1)] policy retry ⟨threshold, .fromSecs 15⟩

theorem ejected_iff_twice : (run (sampleUpstream .roundRobin .default 2).record .new [⟨0, 1, true⟩, ⟨1, 2, true⟩, ⟨0, 3, true⟩]).isEjected 0 4 := by
  refine (ejected_iff _ _ 0 4 (by decide) (by decide)).1.mpr ⟨[⟨0, 1, true⟩, ⟨1, 2, true⟩], ⟨0, 3, true⟩, [], rfl, ?_, by decide,
    by decide, by decide, ?_⟩
  · exact ⟨rfl, rfl, by decide⟩
  · intro pre' r' post' h
    simp at h

/-! ## The budget -/

variable (up : Upstream) (wire : Wire) (req : Forwarding) (health : Health)

/-- A call keeps to its budget exactly if there are no additional tries or an outcome ends the call before the last one is due,
and each target that is picked has an address that is a URI. -/
theorem keepsBudget_iff (heligible : up.StaysEligible wire req health) :
    up.KeepsBudget wire req health ↔
      (up.retry.attempts = 0 ∨ ∃ k < up.retry.attempts, up.retry.retries (wire.outcome k) = false) ∧
        up.Addressable wire req health := by
  rw [addressable_iff heligible]
  constructor
  · rintro ⟨⟨n, hn, hlength, -, hend⟩, -, -⟩
    -- the call gets no further than the requests it sends
    suffices hsent : (up.retry.attempts = 0 ∨ ∃ k < up.retry.attempts, up.retry.retries (wire.outcome k) = false) ∧
        ∀ k < max up.retry.attempts 1, ∀ h, up.before wire req health k = some h → k < (up.forward wire req health).sent.length by
      refine ⟨hsent.1, fun k hk h hbefore => ?_⟩
      obtain ⟨-, h', hbefore', hattempt⟩ := sent_forward.mp (getElem?_eq_getElem (hsent.2 k hk h hbefore))
      cases hbefore.symm.trans hbefore'
      obtain ⟨i, request, hchoose, -⟩ := sent_attempt.mp hattempt
      exact ⟨i, request, hchoose⟩
    rcases forward_cases up wire req health with ⟨m, h, resp, hm, hbefore, -, -, hsent⟩ | ⟨m, h, hm, hbefore, hretries, -, hsent⟩ |
      ⟨h, hbefore, -, hsent⟩
    · have hall := hend.resolve_right (by simp [(retries_of_before hbefore (k := n) (by omega)).1])
      omega
    · refine ⟨?_, fun k hk h' hbefore' => ?_⟩
      · rcases Nat.eq_zero_or_pos up.retry.attempts with hzero | hpos
        · exact .inl hzero
        · exact .inr ⟨m, by omega, hretries⟩
      · by_contra hnot
        rw [(retries_of_before hbefore' (k := m) (by omega)).1] at hretries
        cases hretries
    · refine ⟨.inl ?_, fun k hk h' hbefore' => hsent ▸ hk⟩
      have hall := hend.resolve_right (by simp [(retries_of_before hbefore (k := n) (by omega)).1])
      omega
  · rintro ⟨hends, hok⟩
    refine ⟨?_, recorded_forward up wire req health, fun sent hmem answer houtcome hstatus => ?_⟩
    · rcases forward_cases up wire req health with ⟨m, h, resp, hm, hbefore, hchoose, -, -⟩ |
        ⟨m, h, hm, hbefore, hretries, -, hsent⟩ | ⟨h, hbefore, -, hsent⟩
      · obtain ⟨i, request, hrequest⟩ := hok m hm h hbefore
        rw [hrequest] at hchoose
        cases hchoose
      · exact ⟨m, by omega, hsent, fun j hj => (retries_of_before hbefore hj).1, .inr hretries⟩
      · rcases hends with hzero | ⟨k, hk, hretries⟩
        · exact ⟨0, Nat.zero_le _, by omega, fun j hj => absurd hj (Nat.not_lt_zero j), .inl hzero.symm⟩
        · rw [(retries_of_before hbefore (k := k) (by omega)).1] at hretries
          cases hretries
    · obtain ⟨k, hk⟩ := mem_iff_getElem?.mp hmem
      rw [result_of_sent hk (by simpa [houtcome, RetryPolicy.retries] using hstatus), houtcome]
      rfl

/-- A request to a pool that hashes every client to the same number, with these outcomes. -/
def sampleWire (outcome : Nat → Outcome) : Wire := ⟨fun _ => 0, fun _ => true, fun _ _ => 0, fun _ => 0, outcome⟩

def answering (status : Nat) : Outcome := .answered ⟨status, [], [], true⟩

def sampleRequest (method : Str) : Forwarding := ⟨method, "/", [], [], none, "a.test"⟩

/-- Two additional tries are allowed, and the first of them is answered. -/
theorem keepsBudget_iff_retried : (sampleUpstream .roundRobin { RetryPolicy.default with attempts := 2 } 5).KeepsBudget
    (sampleWire (fun k => answering (if k = 0 then 502 else 200))) (sampleRequest "GET") .new := by
  refine (keepsBudget_iff _ _ _ _ ?_).mpr ⟨.inr ⟨1, by decide, by decide⟩, fun k _ h i base _ _ _ => rfl⟩
  intro k hk h hbefore
  rcases k with _ | _ | k
  · cases hbefore
    decide
  · cases hbefore
    decide
  · cases (retries_of_before hbefore (k := 1) (by omega)).1

/-- One additional try is allowed, and none is made. -/
theorem no_additional_try :
    (sampleUpstream .roundRobin .default 5).StaysEligible (sampleWire (fun _ => answering 502)) (sampleRequest "GET") .new ∧
    ¬ (sampleUpstream .roundRobin .default 5).KeepsBudget (sampleWire (fun _ => answering 502)) (sampleRequest "GET") .new := by
  constructor
  · intro k hk h hbefore
    rcases Nat.le_one_iff_eq_zero_or_eq_one.mp hk with rfl | rfl
    · cases hbefore
      decide
    · cases hbefore
      decide
  · rintro ⟨⟨m, hm, hlength, -, hend⟩, -, -⟩
    have hone : 1 = m + 1 := hlength
    obtain rfl : m = 0 := by omega
    revert hend
    decide

/-! ## Other targets -/

/-- A retry goes to another target, if there is one in rotation, exactly if the target that failed is out of rotation or the
policy does not come to it. -/
theorem differentTarget_iff :
    (∀ k i h, up.RetriedFrom wire req health k i h → ∀ sent, (up.forward wire req health).sent[k + 1]? = some sent →
      sent.target ≠ i) ↔
    ∀ k i h, up.RetriedFrom wire req health k i h → i ∉ up.eligible (wire.pickAt (k + 1)) h ∨
      up.PassesOver (wire.hash req.clientIp) (up.eligible (wire.pickAt (k + 1)) h) h i := by
  refine forall_congr' (fun k => forall_congr' (fun i => forall_congr' (fun h => forall_congr' (fun hretried => ?_))))
  obtain ⟨j, hj, -⟩ := hretried.other
  rw [← pick_ne_iff (ne_nil_of_mem hj)]
  obtain ⟨-, h', hbefore, hattempt⟩ := sent_forward.mp (getElem?_eq_getElem hretried.again)
  cases hretried.state.symm.trans hbefore
  obtain ⟨target, request, hchoose, hsent⟩ := sent_attempt.mp hattempt
  rw [(choose_eq_ok hchoose).1, getElem?_eq_getElem hretried.again, hsent]
  simp

/-- With both targets in rotation and nothing in flight, the one that has failed is tried again. -/
theorem same_target_again : ∃ h, (sampleUpstream .leastConn ⟨2, [502], true⟩ 5).RetriedFrom (sampleWire (fun _ => answering 502))
      (sampleRequest "GET") .new 0 0 h ∧
    ((sampleUpstream .leastConn ⟨2, [502], true⟩ 5).forward (sampleWire (fun _ => answering 502)) (sampleRequest "GET")
      .new).sent.map Sent.target = [0, 0] ∧
    ((sampleUpstream .ipHash ⟨2, [502], true⟩ 5).forward (sampleWire (fun _ => answering 502)) (sampleRequest "GET")
      .new).sent.map Sent.target = [0, 0] := by
  refine ⟨_, ⟨⟨_, rfl, rfl⟩, by decide, rfl, 1, by decide, by decide⟩, by decide, by decide⟩

/-! ## Requests that must not be repeated -/

/-- Nothing is sent twice exactly if each request after which the pool has a target for another one within the budget never got a
connection. The method makes no difference. -/
theorem sentOnce_iff : up.SentOnce wire req health ↔
    ∀ k h i request, k + 1 < up.retry.attempts → up.before wire req health (k + 1) = some h →
      (up.choose wire req (k + 1) h).1 = .ok (i, request) → wire.outcome k = .failed false := by
  constructor
  · intro h k h' i request hk hbefore hchoose
    obtain ⟨-, h'', sent, hbefore', hattempt⟩ := retries_of_before hbefore (Nat.lt_succ_self k)
    have hsent := sent_forward.mpr ⟨by omega, h'', hbefore', hattempt⟩
    have hnext := sent_forward.mpr ⟨by omega, h', hbefore, sent_attempt.mpr ⟨i, request, hchoose, rfl⟩⟩
    rw [← outcome_of_sent hsent]
    exact h.unconnected k sent hsent (List.getElem?_eq_some_iff.mp hnext).1
  · intro h
    have hunconnected : ∀ k sent, (up.forward wire req health).sent[k]? = some sent →
        k + 1 < (up.forward wire req health).sent.length → sent.outcome = .failed false := by
      intro k sent hsent hlt
      obtain ⟨hk, h', hbefore, hattempt⟩ := sent_forward.mp (List.getElem?_eq_getElem hlt)
      obtain ⟨i, request, hchoose, -⟩ := sent_attempt.mp hattempt
      rw [outcome_of_sent hsent]
      exact h k h' i request (by omega) hbefore hchoose
    refine ⟨fun j k s t hs ht hs' ht' => ?_, hunconnected⟩
    have hj := (List.getElem?_eq_some_iff.mp hs).1
    have hk := (List.getElem?_eq_some_iff.mp ht).1
    rcases Nat.lt_trichotomy j k with hlt | heq | hlt
    · exact absurd (hunconnected j s hs (by omega)) hs'
    · exact heq
    · exact absurd (hunconnected k t ht (by omega)) ht'

/-- A request with side effects is sent again after the connection broke. -/
theorem sent_twice : ((sampleUpstream .roundRobin ⟨2, [502], true⟩ 5).forward (sampleWire (fun _ => .failed true))
      (sampleRequest "POST") .new).sent.map (fun sent => (sent.target, sent.request.method, sent.outcome)) =
        [(0, "POST".toList, Outcome.failed true), (1, "POST".toList, Outcome.failed true)] ∧
    ¬ (sampleUpstream .roundRobin ⟨2, [502], true⟩ 5).SentOnce (sampleWire (fun _ => .failed true)) (sampleRequest "POST") .new := by
  refine ⟨by decide, fun h => ?_⟩
  cases h.unconnected 0 _ rfl (by decide)

/-! ## Requests in flight -/

/-- A call that nothing disturbs leaves the counters as they are, and if it comes to read an answer, then it is that which
`forward` returns. -/
theorem run_forward (wires : Nat → Wire) (reqs : Nat → Forwarding) (pool : Pool) :
    ∃ phase, run (Pool.step up wires reqs) pool
        (.call :: up.tour (wires pool.calls.length) (reqs pool.calls.length) pool.calls.length (max up.retry.attempts 1) 0 health) =
      { pool with calls := pool.calls ++ [phase] } ∧
      (phase = .ended ∨ ∃ answer, phase = .reading answer ∧ normalizeResponse answer =
        (up.forward (wires pool.calls.length) (reqs pool.calls.length) health).result) := by
  have hready : (pool.step up wires reqs .call).calls[pool.calls.length]? = some (.ready (max up.retry.attempts 1 - 1) 0) := by
    simp [Pool.step]
  obtain ⟨phase, hrun, hphase⟩ := run_tour up wires reqs (n := max up.retry.attempts 1) (by omega) health hready
  refine ⟨phase, ?_, hphase⟩
  rw [run_cons, hrun]
  simp [Pool.move, Pool.step]

/-- After a run the counters are exact exactly if no call has been dropped while a request of it was outstanding. -/
theorem exact_iff (wires : Nat → Wire) (reqs : Nat → Forwarding) (events : List Event) :
    (run (Pool.step up wires reqs) .new events).Exact ↔
      ∀ pre e post, events = pre ++ e :: post → ¬ (run (Pool.step up wires reqs) .new pre).Loses e := by
  obtain ⟨lost, hlost, hpermits⟩ := inflight_run up wires reqs events
  refine Iff.trans ?_ (hpermits.trans permits_iff)
  constructor
  · intro h i
    have hcount := h.counts i
    rw [hlost i] at hcount
    omega
  · intro h
    have hcounts : ∀ i, _ := fun i => (hlost i).trans (by rw [h i, Nat.add_zero])
    exact ⟨hcounts, fun hover i => (hcounts i).trans (outstanding_of_ended hover i)⟩

/-- A call is dropped while it waits for its target, and the counter stays up for good. -/
theorem dropped_counted : ∃ pool, pool = run (Pool.step (sampleUpstream .leastConn .default 5) (fun _ => sampleWire (fun _ => answering 200))
      (fun _ => sampleRequest "GET")) .new [.call, .send 0 .new, .drop 0] ∧
    pool.calls = [.ended] ∧ pool.inflight 0 = 1 ∧ ¬ pool.Exact := by
  refine ⟨_, rfl, by decide, by decide, fun h => ?_⟩
  have hzero := h.rests (by decide) 0
  revert hzero
  decide

/-! ## Headers that must not cross -/

/-- In neither direction does a header cross that is meant for one hop only exactly if each such header that is there at all is
listed on the first `Connection` line, and that line is a string. Those of the static list never cross. -/
theorem heldBack_iff (req : Forwarding) (answer : Answer) :
    ((∀ name, req.sets name = false → Held req.headers name → req.outHeaders.getAll name = []) ↔
      ∀ name, req.sets name = false → ShowsAll req.headers name) ∧
    ((∀ name, Held answer.headers name → (normalizeResponse answer).headers.getAll name = []) ↔
      ∀ name, ShowsAll answer.headers name) := by
  constructor
  · refine forall_congr' (fun name => forall_congr' (fun hsets => ?_))
    rw [getAll_outHeaders hsets]
    exact held_copyHeaders_iff
  · exact forall_congr' (fun name => held_copyHeaders_iff)

def xInternalAuth : HeaderName := ⟨"x-internal-auth", by decide⟩

/-- A request that lists a header of its own on the second `Connection` line. -/
def smuggling : Forwarding :=
  ⟨"GET", "/", [(connection, ⟨Str.bytes "close", by decide⟩), (connection, ⟨Str.bytes "X-Internal-Auth", by decide⟩),
    (xInternalAuth, ⟨Str.bytes "secret", by decide⟩)], [], none, "a.test"⟩

theorem nominated_crosses : smuggling.sets xInternalAuth = false ∧ Held smuggling.headers xInternalAuth ∧
    smuggling.outHeaders.getAll xInternalAuth = [⟨Str.bytes "secret", by decide⟩] := by
  refine ⟨by decide, .inr ⟨⟨Str.bytes "X-Internal-Auth", by decide⟩, by decide, "X-Internal-Auth", ?_, ?_⟩, ?_⟩
  all_goals decide

/-! ## Targets -/

/-- Targets are chosen as they should be, by every policy and in every state. -/
theorem selects (up : Upstream) (hash : Option IpAddr → UInt64) : up.Selects hash where
  none_iff clientIp now health := by
    rw [pick_eq_none, eq_nil_iff_forall_not_mem]
    simp only [mem_eligible, not_and, Bool.not_eq_false]
  healthy clientIp now health i h := mem_eligible.mp (mem_eligible_of_pick h)
  leastConn hpolicy clientIp now health i h j hj hhealthy := by
    have hmem : j ∈ up.eligible now health := mem_eligible.mpr ⟨hj, hhealthy⟩
    unfold Upstream.pick at h
    simp only [hpolicy, ne_nil_of_mem hmem, if_false] at h
    exact le_of_mem_argmin (f := fun i => (health.targets i).inflight) hmem h
  ipHash hpolicy clientIp now health now' health' h := by
    unfold Upstream.pick
    simp only [hpolicy, h]
    split <;> rfl
  roundRobin hpolicy health acts targets hsees hlen hroom := by
    by_cases hne : targets = []
    · subst hne
      simp [length_eq_zero_iff.mp hlen]
    · have hsome : up.picks hash health acts ≠ [] := by
        rwa [← length_pos_iff, hlen, length_pos_iff]
      refine ⟨nodup_of_sees hsees hsome, ?_⟩
      have hpicks := picks_eq hpolicy hne hsees (hlen.symm ▸ hroom)
      have hrotate : up.picks hash health acts = (targets.rotate health.rr.toNat).map some := by
        rw [hpicks, hlen]
        refine ext_getElem (by simp) (fun k hk _ => ?_)
        have hlt : k < targets.length := by simpa using hk
        have hmod : (k + health.rr.toNat) % targets.length < targets.length := Nat.mod_lt _ (by omega)
        simp [getElem_rotate, Nat.add_comm health.rr.toNat, hmod]
      rw [hrotate]
      exact (rotate_perm _ _).map _

end Pulsate.Proxy
