import Pulsate.Proxy.Concurrent
import Pulsate.Proxy.Lemmas.Forward

/-!
# Lemmas about calls side by side
-/

namespace Pulsate.Proxy

open Option Pool
open Lib (run Permits)

variable {up : Upstream} {wires : Nat → Wire} {reqs : Nat → Forwarding} {pool : Pool} {c i j left k : Nat} {phase phase' : Phase}

/-! ## Counting -/

theorem outstanding_move (hc : pool.calls[c]? = some phase) (phase' : Phase) (i : Nat) :
    (pool.move c phase').outstanding i + (if phase.awaits i then 1 else 0) =
      pool.outstanding i + if phase'.awaits i then 1 else 0 := by
  obtain ⟨hlt, hphase⟩ := List.getElem?_eq_some_iff.mp hc
  have hle : (if phase.awaits i then 1 else 0) ≤ pool.outstanding i := by
    split
    · rename_i hawaits
      exact List.countP_pos_iff.mpr ⟨phase, List.mem_of_getElem? hc, hawaits⟩
    · exact Nat.zero_le _
  unfold move outstanding at *
  rw [List.countP_set hlt, hphase]
  omega

@[simp] theorem outstanding_count (pool : Pool) (i n j : Nat) : (pool.count i n).outstanding j = pool.outstanding j := rfl

@[simp] theorem inflight_move (pool : Pool) (c : Nat) (phase : Phase) (i : Nat) : (pool.move c phase).inflight i = pool.inflight i := rfl

theorem inflight_count (pool : Pool) (i n j : Nat) : (pool.count i n).inflight j = if j = i then n else pool.inflight j :=
  Function.update_apply pool.inflight i n j

/-- What an event takes from the calls that are waiting, without taking it from the counter. -/
def Pool.lostBy (pool : Pool) (i : Nat) : Event → Nat
  | .call | .send _ _ | .finish _ | .read _ => 0
  | .drop c => if (pool.calls[c]?).any (Phase.awaits i) then 1 else 0

theorem lostBy_eq_zero {e : Event} : (∀ i, pool.lostBy i e = 0) ↔ ¬ pool.Loses e := by
  constructor
  · rintro h ⟨c, left, k, i, rfl, hc⟩
    have := h i
    simp [lostBy, hc, Phase.awaits] at this
  · intro h i
    cases e with
    | drop c =>
      refine if_neg (fun hany => ?_)
      obtain ⟨phase, hc, hawaits⟩ := (any_eq_true _ _).mp hany
      cases phase with
      | waiting left k j => exact h ⟨c, left, k, j, rfl, hc⟩
      | _ => cases hawaits
    | _ => rfl

theorem awaits_phaseAfter (left k : Nat) (outcome : Outcome) (i : Nat) : (up.phaseAfter left k outcome).awaits i = false := by
  unfold Upstream.phaseAfter
  split
  · cases left <;> rfl
  · cases outcome <;> rfl

/-- Moving a call that is not waiting to where it is not waiting changes nothing. -/
theorem inflight_move_idle {n : Nat} (h : pool.inflight i = pool.outstanding i + n) (hc : pool.calls[c]? = some phase)
    (hphase : phase.awaits i = false) (hphase' : phase'.awaits i = false) :
    (pool.move c phase').inflight i = (pool.move c phase').outstanding i + n := by
  have hmoved := outstanding_move hc phase' i
  simp only [hphase, hphase', Bool.false_eq_true, if_false, Nat.add_zero] at hmoved
  rw [inflight_move, h, hmoved]

theorem inflight_move_counted {n m : Nat} (h : pool.inflight i = pool.outstanding i + n) (hc : pool.calls[c]? = some phase)
    (hcount : i = j → m + (if phase.awaits i then 1 else 0) = pool.inflight i + if phase'.awaits i then 1 else 0)
    (hother : i ≠ j → phase.awaits i = false ∧ phase'.awaits i = false) :
    ((pool.move c phase').count j m).inflight i = ((pool.move c phase').count j m).outstanding i + n := by
  rw [inflight_count, outstanding_count]
  by_cases hi : i = j
  · have hmoved := outstanding_move hc phase' i
    have hm := hcount hi
    rw [if_pos hi]
    omega
  · rw [if_neg hi]
    exact inflight_move_idle h hc (hother hi).1 (hother hi).2

theorem inflight_step {n : Nat} (h : pool.inflight i = pool.outstanding i + n) (e : Event) :
    (pool.step up wires reqs e).inflight i = (pool.step up wires reqs e).outstanding i + (n + pool.lostBy i e) := by
  cases e with
  | call => simpa [step, lostBy, outstanding, Phase.awaits] using h
  | send c seen =>
    rw [step, lostBy]
    split
    · rename_i left k hc
      split
      · exact inflight_move_idle h hc rfl rfl
      · refine inflight_move_counted h hc ?_ ?_
        · rintro rfl
          simp [Phase.awaits]
        · intro hi
          simp [Phase.awaits, Ne.symm hi]
    · exact h
  | finish c =>
    rw [step, lostBy]
    split
    · rename_i left k j hc
      refine inflight_move_counted h hc ?_ ?_
      · rintro rfl
        have hmoved := outstanding_move hc .ended i
        rw [awaits_phaseAfter]
        simp only [Phase.awaits, decide_true, Bool.false_eq_true, if_true, if_false] at hmoved ⊢
        omega
      · exact fun hi => ⟨decide_eq_false (Ne.symm hi), awaits_phaseAfter left k _ i⟩
    · exact h
  | read c =>
    rw [step, lostBy]
    split
    · exact inflight_move_idle h ‹_› rfl rfl
    · exact h
  | drop c =>
    rw [step, lostBy]
    split
    · rename_i left k j hc
      have hmoved := outstanding_move hc .ended i
      rw [hc, any_some, inflight_move]
      simp only [Phase.awaits, Bool.false_eq_true, if_false] at hmoved ⊢
      omega
    · rename_i hc
      rw [hc]
      exact inflight_move_idle h hc rfl rfl
    · rename_i hwaiting _
      rw [h, if_neg, Nat.add_zero]
      intro hany
      obtain ⟨phase, hc, hawaits⟩ := (any_eq_true _ _).mp hany
      cases phase with
      | waiting left k j => exact hwaiting left k j hc
      | _ => cases hawaits

theorem inflight_run (up : Upstream) (wires : Nat → Wire) (reqs : Nat → Forwarding) (events : List Event) :
    ∃ lost : Nat → Nat, (∀ i, (run (step up wires reqs) .new events).inflight i =
        (run (step up wires reqs) .new events).outstanding i + lost i) ∧
      ((∀ i, lost i = 0) ↔ Permits (fun pool e => ¬ pool.Loses e) (step up wires reqs) .new events) := by
  induction events using List.reverseRecOn with
  | nil => exact ⟨fun _ => 0, fun _ => rfl, iff_of_true (fun _ => rfl) trivial⟩
  | append_singleton events e ih =>
    obtain ⟨lost, hlost, hiff⟩ := ih
    refine ⟨fun i => lost i + (run (step up wires reqs) .new events).lostBy i e, fun i => ?_, ?_⟩
    · rw [Lib.run_concat]
      exact inflight_step (hlost i) e
    · rw [Lib.permits_concat, ← hiff, ← lostBy_eq_zero, ← forall_and]
      exact forall_congr' (fun i => Nat.add_eq_zero_iff)

theorem outstanding_of_ended (h : ∀ phase ∈ pool.calls, phase.isLive = false) (i : Nat) : pool.outstanding i = 0 := by
  refine List.countP_eq_zero.mpr (fun phase hmem hawaits => ?_)
  have hlive := h phase hmem
  cases phase with
  | ended => cases hawaits
  | _ => cases hlive

/-! ## A call alone -/

theorem move_move (pool : Pool) (c : Nat) (phase phase' : Phase) : (pool.move c phase).move c phase' = pool.move c phase' := by
  simp [move]

theorem calls_move (hc : pool.calls[c]? = some phase) (phase' : Phase) : (pool.move c phase').calls[c]? = some phase' := by
  have hlt := (List.getElem?_eq_some_iff.mp hc).1
  simp [move, hlt]

theorem step_send_refused {health h' : Health} {resp : Http.Response} (hc : pool.calls[c]? = some (.ready left k))
    (heq : up.attempt (wires c) (reqs c) k health = .refused resp h') :
    pool.step up wires reqs (.send c health) = pool.move c .ended := by
  simp only [step, hc, attempt_refused heq]

theorem step_send_finish {health : Health} {sent : Sent} (hc : pool.calls[c]? = some (.ready left k))
    (hsent : (up.attempt (wires c) (reqs c) k health).sent = some sent) :
    (pool.step up wires reqs (.send c health)).step up wires reqs (.finish c) =
      pool.move c (up.phaseAfter left k ((wires c).outcome k)) := by
  obtain ⟨i, request, hchoose, -⟩ := sent_attempt.mp hsent
  have hsend : pool.step up wires reqs (.send c health) =
      (pool.move c (.waiting left k i)).count i (pool.inflight i + 1) := by
    simp only [step, hc, hchoose]
  have hcalls : ((pool.move c (.waiting left k i)).count i (pool.inflight i + 1)).calls[c]? = some (.waiting left k i) :=
    calls_move hc _
  rw [hsend]
  simp only [step, hcalls]
  simp [move, count]

theorem run_tour (up : Upstream) (wires : Nat → Wire) (reqs : Nat → Forwarding) {n : Nat} (hn : n = left + 1) (health : Health)
    (hc : pool.calls[c]? = some (.ready left k)) :
    ∃ phase, run (step up wires reqs) pool (up.tour (wires c) (reqs c) c n k health) = pool.move c phase ∧
      (phase = .ended ∨ ∃ answer, phase = .reading answer ∧ normalizeResponse answer =
        (Lib.tries (up.attempt (wires c) (reqs c)) (errorResponse .retryExhausted) n k health).result) := by
  induction n generalizing left k health pool with
  | zero => cases hn
  | succ n ih =>
    obtain rfl : n = left := Nat.succ.inj hn
    rw [Upstream.tour, Lib.tries]
    cases heq : up.attempt (wires c) (reqs c) k health with
    | refused resp h' => exact ⟨.ended, step_send_refused hc heq, .inl rfl⟩
    | final sent resp h' =>
      obtain ⟨hretries, rfl⟩ := attempt_final heq
      refine ⟨_, step_send_finish hc (by rw [heq]; rfl), ?_⟩
      unfold Upstream.phaseAfter
      rw [if_neg (by simp [hretries])]
      cases houtcome : (wires c).outcome k with
      | answered answer => exact .inr ⟨answer, rfl, rfl⟩
      | failed connected => exact .inl rfl
    | again sent h' =>
      have hnext : (up.attempt (wires c) (reqs c) k health).next = some h' := by
        rw [heq]
        rfl
      have hretries := (next_attempt hnext).1
      have hsteps := step_send_finish hc (by rw [heq]; rfl)
      simp only [Lib.run_cons, hsteps, Upstream.phaseAfter, hretries, if_true]
      cases n with
      | zero => exact ⟨.ended, rfl, .inl rfl⟩
      | succ n =>
        obtain ⟨phase, hrun, hphase⟩ := ih rfl h' (calls_move hc _)
        exact ⟨phase, hrun.trans (move_move pool c _ phase), hphase⟩

end Pulsate.Proxy
