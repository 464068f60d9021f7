import Pulsate.Cluster.Lemmas.Handle

/-!
# What makes a peer suspect or dead

Every deadline a record carries was set when the record became suspect, and every probe that is outstanding was
begun at a time its own deadline tells. Both are kept event by event, as facts about the history of the run.
-/

namespace Pulsate.Cluster

open Pulsate.Lib List OrdMap Pulsate.Cluster.Runtime

variable {r : Runtime} {s : Shared} {timeout : Nat} {now : Instant} {node : NodeId} {q : Peer}

variable {history : List Moment} {clock : Nat → Instant} {e : Event} {es : List Event}

/-! ## What replaces a record -/

/-- The record an update leaves. -/
def MemberUpdate.peer (u : MemberUpdate) (timeout : Nat) (now : Instant) : Peer :=
  ⟨u.addr, u.incarnation, u.state, if u.state = .suspect then some (now + timeout) else none⟩

theorem get?_applyUpdate {u : MemberUpdate} (h : (s.applyUpdate timeout now u).1.peers.get? node = some q) :
    s.peers.get? node = some q ∨
      (u.node = node ∧ q = u.peer timeout now ∧ ∀ p, s.peers.get? node = some p → u.Supersedes p) := by
  unfold Shared.applyUpdate at h
  split at h
  · split at h <;> exact .inl h
  · by_cases hn : u.node = node
    · subst hn
      cases hp : s.peers.get? u.node with
      | none =>
        rw [hp] at h
        have hq : q = u.peer timeout now := by
          cases hs : u.state <;> simp [hs, MemberUpdate.peer] at h ⊢ <;> exact h.symm
        exact .inr ⟨rfl, hq, nofun⟩
      | some p =>
        rw [hp] at h
        dsimp only at h
        split at h
        · rename_i hsup
          have hq : q = u.peer timeout now := by
            cases hs : u.state <;> simp [hs, MemberUpdate.peer] at h ⊢ <;> exact h.symm
          refine .inr ⟨rfl, hq, fun p' hp' => ?_⟩
          cases hp'
          exact hsup
        · exact .inl (hp.symm.trans h)
    · have hne : node ≠ u.node := fun hc => hn hc.symm
      left
      split at h
      · dsimp only at h
        split at h <;> simpa [get?_insert_ne _ _ hne] using h
      · split at h
        · split at h <;> simpa [get?_insert_ne _ _ hne] using h
        · exact h

theorem get?_markSuspect {target : NodeId} (h : (s.markSuspect timeout target now).peers.get? node = some q) :
    s.peers.get? node = some q ∨
      (target = node ∧ q.suspectDeadline = some (now + timeout) ∧ q.state = .suspect ∧
        ∃ p, s.peers.get? node = some p ∧ p.state = .alive) := by
  unfold Shared.markSuspect at h
  split at h
  · rename_i p hp
    split at h
    · rename_i halive
      by_cases hn : node = target
      · subst hn
        rw [get?_insert_self] at h
        cases h
        exact .inr ⟨rfl, rfl, rfl, p, hp, halive⟩
      · rw [get?_insert_ne _ _ hn] at h
        exact .inl h
    · exact .inl h
  · exact .inl h

theorem get?_markAlive {target : NodeId} (h : (s.markAlive target).peers.get? node = some q) :
    s.peers.get? node = some q ∨ q.state = .alive := by
  unfold Shared.markAlive at h
  split at h
  · split at h
    · by_cases hn : node = target
      · subst hn
        rw [get?_insert_self] at h
        cases h
        exact .inr rfl
      · rw [get?_insert_ne _ _ hn] at h
        exact .inl h
    · exact .inl h
  · exact .inl h

theorem get?_reapSuspects (h : (s.reapSuspects now).1.peers.get? node = some q) :
    s.peers.get? node = some q ∨
      ∃ p deadline, s.peers.get? node = some p ∧ p.state = .suspect ∧ p.suspectDeadline = some deadline ∧
        deadline ≤ now ∧ q.state = .dead ∧ q.incarnation = p.incarnation := by
  simp only [Shared.reapSuspects, get?_mapVal] at h
  obtain ⟨p, hp, he⟩ := Option.map_eq_some_iff.mp h
  split at he
  · rename_i hexpired
    simp only [Shared.expired, Bool.and_eq_true, beq_iff_eq] at hexpired
    obtain ⟨deadline, hd, hle⟩ := (Option.any_eq_true _ _).mp hexpired.2
    subst he
    exact .inr ⟨p, deadline, hp, hexpired.1, hd, by simpa using hle, rfl, rfl⟩
  · exact .inl (hp.trans (congrArg some he))

/-! ## Suspicion -/

/-- A suspect that was not one before has its deadline from this moment. -/
def Arms (timeout : Nat) (now : Instant) (peers peers' : OrdMap NodeId Peer) : Prop :=
  ∀ n q, peers'.get? n = some q → q.state = .suspect →
    peers.get? n = some q ∨ q.suspectDeadline = some (now + timeout)

theorem Arms.update (s : Shared) (timeout : Nat) (now : Instant) (u : MemberUpdate) :
    Arms timeout now s.peers (s.applyUpdate timeout now u).1.peers := by
  intro n q hq hs
  rcases get?_applyUpdate hq with h | ⟨-, rfl, -⟩
  · exact .inl h
  · exact .inr (if_pos hs)

theorem Arms.suspect (s : Shared) (timeout : Nat) (target : NodeId) (now : Instant) :
    Arms timeout now s.peers (s.markSuspect timeout target now).peers := by
  intro n q hq _
  rcases get?_markSuspect hq with h | ⟨-, h, -⟩
  · exact .inl h
  · exact .inr h

theorem Arms.reap (s : Shared) (timeout : Nat) (now : Instant) :
    Arms timeout now s.peers (s.reapSuspects now).1.peers := by
  intro n q hq hs
  rcases get?_reapSuspects hq with h | ⟨p, deadline, -, -, -, -, hdead, -⟩
  · exact .inl h
  · rw [hdead] at hs
    cases hs

/-- Every suspect has been one, at its incarnation, for the timeout less what its deadline leaves. -/
def Backed (timeout : Nat) (history : List Moment) (peers : OrdMap NodeId Peer) : Prop :=
  ∀ n p, peers.get? n = some p → p.state = .suspect →
    ∃ since, p.suspectDeadline = some (since + timeout) ∧ SuspectSince history n p.incarnation since

theorem Backed.moment {peers peers' : OrdMap NodeId Peer} (h : Backed timeout history peers)
    (harms : Arms timeout now peers peers') : Backed timeout (history ++ [⟨now, peers'⟩]) peers' := by
  intro n p hp hs
  rcases harms n p hp hs with hold | hnew
  · obtain ⟨since, hdeadline, earlier, first, later, rfl, htime, hall⟩ := h n p hold hs
    refine ⟨since, hdeadline, earlier, first, later ++ [⟨now, peers'⟩], by simp, htime, fun m hm => ?_⟩
    rcases mem_append.mp (cons_append ▸ hm : m ∈ (first :: later) ++ [⟨now, peers'⟩]) with hm | hm
    · exact hall m hm
    · rw [mem_singleton.mp hm]
      exact ⟨p, hp, hs, rfl⟩
  · refine ⟨now, hnew, history, ⟨now, peers'⟩, [], rfl, rfl, fun m hm => ?_⟩
    rw [mem_singleton.mp hm]
    exact ⟨p, hp, hs, rfl⟩

theorem Backed.updates {us : List MemberUpdate} (h : Backed timeout history s.peers) :
    Backed timeout (history ++ Shared.moments timeout clock s us) (Shared.applyUpdates timeout clock s us).1.peers := by
  induction us generalizing s history with
  | nil =>
    rw [Shared.moments, append_nil]
    exact h
  | cons u us ih =>
    rw [Shared.moments, append_cons]
    exact ih (h.moment (.update s timeout _ u))

theorem handle_arms {o : HashOrder} {f : Frame} (hv : f.version = protocolVersion) :
    Arms r.config.suspicionTimeout now
      (Shared.applyUpdates r.config.suspicionTimeout clock r.shared f.updates).1.peers
      (r.handle o clock now (some f)).1.shared.peers := by
  intro n q hq hs
  rcases @handle_shared r o clock now f hv with h | ⟨target, h⟩
  · rw [h] at hq
    exact .inl hq
  · rw [h] at hq
    rcases get?_markAlive hq with hq | halive
    · exact .inl hq
    · rw [halive] at hs
      cases hs

theorem advanceProbe_arms (r : Runtime) (o : HashOrder) (now : Instant) :
    Arms r.config.suspicionTimeout now r.shared.peers (r.advanceProbe o now).1.shared.peers := by
  have h := advanceProbe_turns r o now
  generalize (r.advanceProbe o now).1 = r' at h ⊢
  cases h with
  | suspected => exact .suspect r.shared _ _ now
  | _ => exact fun n q hq _ => .inl hq

theorem Backed.still (hnone : r.moments e = []) (hsame : (r.step e).shared.peers = r.shared.peers)
    (h : Backed timeout history r.shared.peers) : Backed timeout (history ++ r.moments e) (r.step e).shared.peers := by
  rw [hnone, hsame, append_nil]
  exact h

theorem Backed.step (hloop : e.OfLoop) (h : Backed r.config.suspicionTimeout history r.shared.peers) :
    Backed r.config.suspicionTimeout (history ++ r.moments e) (r.step e).shared.peers := by
  cases e with
  | handle o clock now d =>
    cases d with
    | none => exact h.still rfl rfl
    | some f =>
      rw [step, react, moments]
      by_cases hv : f.version = protocolVersion
      · rw [if_neg (not_not.mpr hv), ← append_assoc]
        exact h.updates.moment (handle_arms hv)
      · rw [if_pos hv, handle_version hv, append_nil]
        exact h
  | reapSuspects o now =>
    obtain ⟨rng, seq, he⟩ := reapSuspects_keeps_rest r o now
    rw [step, react, moments, he]
    exact h.moment (.reap r.shared _ now)
  | advanceProbe o now => exact h.moment (advanceProbe_arms r o now)
  | startProbe o now => exact h.still rfl (congrArg Shared.peers (startProbe_shared r o now))
  | gossipRound o => exact h.still rfl (congrArg Shared.peers (gossipRound_shared r o))
  | markSuspect node now => exact hloop.elim
  | markAlive node => exact hloop.elim
  | expireRelays now => exact h.still rfl rfl
  | incr n => exact h.still rfl rfl

theorem history_concat (r : Runtime) (es : List Event) (e : Event) :
    r.history (es ++ [e]) = r.history es ++ (run step r es).moments e := by
  induction es generalizing r with
  | nil => simp [history]
  | cons first es ih =>
    rw [cons_append, history, ih, history, append_assoc, run_cons]

theorem run_config (r : Runtime) (es : List Event) : (run step r es).config = r.config :=
  run_invariant (I := fun r' => r'.config = r.config) (fun r' e h => (step_config r' e).trans h) rfl es

theorem backed_run (hloop : ∀ e ∈ es, e.OfLoop) (hnew : r.shared.peers = ∅) :
    Backed r.config.suspicionTimeout (r.history es) (run step r es).shared.peers := by
  induction es using List.reverseRecOn with
  | nil =>
    intro n p hp
    rw [run_nil, hnew, get?_emptyCollection] at hp
    cases hp
  | append_singleton es e ih =>
    have hes := ih (fun x hx => hloop x (mem_append_left _ hx))
    rw [run_concat, history_concat]
    rw [← run_config r es] at hes ⊢
    exact hes.step (hloop e mem_concat_self)

/-! ## Probes -/

/-- The outstanding probe was begun at a time that its phase and its deadline tell. -/
def Dated (r : Runtime) (es : List Event) (p : Probe) : Prop :=
  ∃ start, r.ProbedSince es p start ∧
    match p.phase with
    | .direct => start + r.config.probeTimeout ≤ p.deadline
    | .indirect => start + 2 * r.config.probeTimeout ≤ p.deadline

theorem Runtime.ProbedSince.concat {p p' : Probe} {start : Instant} (h : r.ProbedSince es p start)
    (hstep : (run step r (es ++ [e])).probe = some p') (hseq : p'.seq = p.seq) (htarget : p'.target = p.target)
    (hack : ¬ e.Acks p.seq) : r.ProbedSince (es ++ [e]) p' start := by
  obtain ⟨before, o, after, rfl, hnone, hmid, hacks⟩ := h
  refine ⟨before, o, after ++ [e], by simp, hnone, fun mid hm => ?_, fun x hx => ?_⟩
  · rw [hseq, htarget]
    rcases prefix_concat_iff.mp hm with rfl | hm
    · refine ⟨p', ?_, hseq, htarget⟩
      rw [append_assoc, cons_append] at hstep
      exact hstep
    · exact hmid mid hm
  · rw [hseq]
    rcases mem_append.mp hx with hx | hx
    · exact hacks x hx
    · rw [mem_singleton.mp hx]
      exact hack

theorem dated_run {p : Probe} (hnew : r.probe = none) (hp : (run step r es).probe = some p) : Dated r es p := by
  induction es using List.reverseRecOn generalizing p with
  | nil =>
    rw [run_nil, hnew] at hp
    cases hp
  | append_singleton es e ih =>
    have hstep := hp
    rw [run_concat] at hstep
    rcases step_probe_cases hstep with ⟨hsame, hack⟩ | ⟨o, now, q, rfl, hq, hphase, hdue, rfl⟩ |
      ⟨o, now, rfl, hnone, hphase, hdeadline⟩
    · obtain ⟨start, hsince, htime⟩ := ih hsame
      exact ⟨start, hsince.concat hp rfl rfl hack, htime⟩
    · -- the second phase starts when the first is over
      obtain ⟨start, hsince, htime⟩ := ih hq
      rw [hphase] at htime
      dsimp only at htime
      refine ⟨start, hsince.concat hp rfl rfl id, ?_⟩
      calc start + 2 * r.config.probeTimeout
          _ = start + r.config.probeTimeout + r.config.probeTimeout := by rw [Nat.two_mul, Nat.add_assoc]
          _ ≤ now + r.config.probeTimeout := Nat.add_le_add_right (htime.trans hdue) _
          _ = now + (run step r es).config.probeTimeout := by rw [run_config]
    · refine ⟨now, ⟨es, o, [], rfl, hnone, fun mid hm => ?_, nofun⟩, ?_⟩
      · rw [prefix_nil.mp hm]
        exact ⟨p, hp, rfl, rfl⟩
      · rw [hphase, hdeadline, run_config]

/-! ## The updates of a frame -/

theorem get?_applyUpdates {us : List MemberUpdate} (h : (Shared.applyUpdates timeout clock s us).1.peers.get? node = some q)
    (hne : s.peers.get? node ≠ some q) :
    ∃ before u after, us = before ++ u :: after ∧ u.node = node ∧ u.state = q.state ∧ u.incarnation = q.incarnation ∧
      ∀ p, (Shared.applyUpdates timeout (fun n => clock (n + (after.length + 1))) s before).1.peers.get? node = some p →
        u.Supersedes p := by
  induction us generalizing s with
  | nil => exact absurd h hne
  | cons u us ih =>
    by_cases hstep : (s.applyUpdate timeout (clock us.length) u).1.peers.get? node = some q
    · rcases get?_applyUpdate hstep with hold | ⟨hn, rfl, hsup⟩
      · exact absurd hold hne
      · exact ⟨[], u, us, rfl, hn, rfl, rfl, hsup⟩
    · obtain ⟨before, v, after, rfl, hn, hst, hinc, hsup⟩ := ih h hstep
      refine ⟨u :: before, v, after, rfl, hn, hst, hinc, ?_⟩
      have hlen : (before ++ v :: after).length = before.length + (after.length + 1) := by simp
      rw [hlen] at hsup
      exact hsup

end Pulsate.Cluster
