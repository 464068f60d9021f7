import Pulsate.Cluster.Network.Lemmas.Numbers

/-!
# From a probe to the ack that completes it

From the step on that begins a probe, every ping with its number goes to the address it probes, whoever sends
it, and every ack with its number follows an answer from there.
-/

namespace Pulsate.Cluster

open Pulsate.Lib List Network

variable {p : Probe} {e : Event}

/-! ## The outstanding probe -/

/-- Two phases of one probe. -/
def Probe.Same (q p : Probe) : Prop := q.seq = p.seq ∧ q.target = p.target ∧ q.targetAddr = p.targetAddr

theorem Probe.Same.refl (p : Probe) : p.Same p := ⟨rfl, rfl, rfl⟩

theorem Probe.Same.trans {q s : Probe} (h₁ : p.Same q) (h₂ : q.Same s) : p.Same s :=
  ⟨h₁.1.trans h₂.1, h₁.2.1.trans h₂.2.1, h₁.2.2.trans h₂.2.2⟩

/-- The event begins the probe: with a number of its own, by a ping to the address the target is recorded at. -/
structure Begins (r : Runtime) (e : Event) (p : Probe) : Prop where
  event : ∃ o now, e = .startProbe o now
  idle : r.probe = none
  recorded : ∃ peer, r.shared.peers.get? p.target = some peer ∧ peer.addr = p.targetAddr
  probe : (r.step e).probe = some p
  drawn : r.drawn e = [p.seq]
  sends : ∀ x ∈ (r.react e).2, x.1 = p.targetAddr ∧ x.2.seq = p.seq ∧ x.2.kind = .ping

theorem step_probe {r : Runtime} (h : (r.step e).probe = some p) : (∃ q, r.probe = some q ∧ q.Same p) ∨ Begins r e p := by
  rcases step_probe_cases h with ⟨hp, -⟩ | ⟨o, now, q, rfl, hq, -, -, rfl⟩ | ⟨o, now, rfl, hnone, -, -⟩
  · exact .inl ⟨p, hp, .refl p⟩
  · exact .inl ⟨q, hq, rfl, rfl, rfl⟩
  · rcases startProbe_cases r o now with ⟨hkept, -⟩ | ⟨node, peer, hidle, hpeer, hdrawn, hprobe, -, hsent⟩
    · rw [Runtime.step, Runtime.react, hkept, hnone] at h
      cases h
    · rw [hprobe] at h
      cases h
      refine .inr ⟨⟨o, now, rfl⟩, hidle, ⟨peer, hpeer, rfl⟩, hprobe, hdrawn, fun x hx => ?_⟩
      rw [hsent] at hx
      rw [mem_singleton.mp hx]
      exact ⟨rfl, rfl, rfl⟩

namespace Network

variable {ι : Type} [DecidableEq ι] {net : Network ι} {as : List (Action ι)} {a : Action ι} {i : ι}

theorem step_probe (h : ((net.step a).nodes i).probe = some p) :
    (∃ q, (net.nodes i).probe = some q ∧ q.Same p) ∨ ∃ e, a = .event i e ∧ Begins (net.nodes i) e p := by
  cases a with
  | resend j o dest frame => exact .inl ⟨p, h, .refl p⟩
  | event j e =>
    by_cases hj : i = j
    · subst hj
      rw [step_event_self] at h
      exact (Cluster.step_probe h).imp_right (fun hb => ⟨e, rfl, hb⟩)
    · rw [step_event_ne _ _ hj] at h
      exact .inl ⟨p, h, .refl p⟩

theorem probe_began (hnet : ∀ i, (net.nodes i).probe = none) (h : ((run step net as).nodes i).probe = some p) :
    ∃ before e after q, as = before ++ .event i e :: after ∧ q.Same p ∧
      Begins ((run step net before).nodes i) e q := by
  induction as using List.reverseRecOn generalizing p with
  | nil =>
    rw [run_nil, hnet] at h
    cases h
  | append_singleton as a ih =>
    rw [run_concat] at h
    rcases step_probe h with ⟨q, hq, hsame⟩ | ⟨e, rfl, hb⟩
    · obtain ⟨before, e, after, q', rfl, hq', hb⟩ := ih hq
      exact ⟨before, e, after ++ [a], q', by simp, hq'.trans hsame, hb⟩
    · exact ⟨as, e, [], p, rfl, .refl p, hb⟩

/-! ## Numbers in use -/

/-- Every number on the way or outstanding was taken before. -/
structure Used (net : Network ι) (as : List (Action ι)) (net' : Network ι) : Prop where
  sent : ∀ x ∈ net'.sent, ∃ j, (j, x.2.seq) ∈ net.drawnIn as
  probe : ∀ i p, (net'.nodes i).probe = some p → (i, p.seq) ∈ net.drawnIn as

variable {listener : SocketAddr → Option ι}

omit [DecidableEq ι] in
theorem used_of_cause {x : SocketAddr × Frame} {drawn : List (ι × UInt64)} (hsent : ∀ x ∈ net.sent, ∃ j, (j, x.2.seq) ∈ drawn)
    (hprobe : ∀ i p, (net.nodes i).probe = some p → (i, p.seq) ∈ drawn) (hok : net.Allows listener (.event i e))
    (hc : Cause (net.nodes i) e x) : (∃ j, (j, x.2.seq) ∈ drawn) ∨ (i, x.2.seq) ∈ net.drawnBy (.event i e) := by
  have hframe : ∀ {o clock now f}, e = .handle o clock now (some f) → x.2.seq = f.seq → ∃ j, (j, x.2.seq) ∈ drawn := by
    rintro o clock now f rfl hseq
    obtain ⟨addr, -, hmem⟩ := hok
    obtain ⟨j, hj⟩ := hsent _ hmem
    exact ⟨j, hseq ▸ hj⟩
  cases hc with
  | fresh hseq _ => exact .inr (mem_map.mpr ⟨_, hseq, rfl⟩)
  | ask hp hseq _ => exact .inl ⟨i, hseq ▸ hprobe i _ hp⟩
  | reply he hseq _ _ => exact .inl (hframe he hseq)
  | relay he hseq _ _ => exact .inl (hframe he hseq)
  | forward he hseq _ _ => exact .inl (hframe he hseq)

theorem used (hsent : net.sent = []) (hprobe : ∀ i, (net.nodes i).probe = none)
    (h : Permits (Allows listener) step net as) : Used net as (run step net as) := by
  refine history_invariant (I := Used net) ⟨?_, ?_⟩ ?_ as h
  · rw [hsent]
    nofun
  · intro i p hp
    rw [hprobe] at hp
    cases hp
  · intro as a hok hu
    have hok := (permits_concat.mp hok).2
    refine ⟨fun x hx => ?_, fun i p hp => ?_⟩
    · rw [drawnIn_concat]
      rcases mem_append.mp hx with hx | hx
      · obtain ⟨j, hj⟩ := hu.sent x hx
        exact ⟨j, mem_append_left _ hj⟩
      · cases a with
        | event i e =>
          rcases used_of_cause hu.sent hu.probe hok (mem_react hx).cause with ⟨j, hj⟩ | hi
          · exact ⟨j, mem_append_left _ hj⟩
          · exact ⟨i, mem_append_right _ hi⟩
        | resend i o dest frame =>
          rw [mem_singleton.mp hx]
          obtain ⟨j, hj⟩ := hu.sent _ hok.2
          exact ⟨j, mem_append_left _ hj⟩
    · rw [drawnIn_concat]
      rcases step_probe hp with ⟨q, hq, hsame⟩ | ⟨e, rfl, hb⟩
      · exact mem_append_left _ (hsame.1 ▸ hu.probe i q hq)
      · refine mem_append_right _ (mem_map.mpr ⟨p.seq, ?_, rfl⟩)
        rw [hb.drawn]
        exact mem_cons_self

/-! ## On target -/

/-- The node that listens at `addr` handles a ping with the number and answers it. -/
def Answers (listener : SocketAddr → Option ι) (seq : UInt64) (addr : SocketAddr) (net : Network ι) (a : Action ι) : Prop :=
  ∃ i o clock now f x, a = .event i (.handle o clock now (some f)) ∧ listener addr = some i ∧ f.kind = .ping ∧
    f.seq = seq ∧ x ∈ net.emits a ∧ x.2.kind = .ack ∧ x.2.seq = seq

/-- Since `net`, the number has been answered from `addr`. -/
def Answered (listener : SocketAddr → Option ι) (seq : UInt64) (addr : SocketAddr) (net : Network ι)
    (as : List (Action ι)) : Prop :=
  ∃ between answer after, as = between ++ answer :: after ∧
    Answers listener seq addr (run step net between) answer

theorem Answered.concat {seq : UInt64} {addr : SocketAddr} (h : Answered listener seq addr net as) (a : Action ι) :
    Answered listener seq addr net (as ++ [a]) := by
  obtain ⟨between, answer, after, rfl, ha⟩ := h
  exact ⟨between, answer, after ++ [a], by simp, ha⟩

/-- What carries the number is meant for the address, and acks with it follow an answer. -/
structure OnTarget (listener : SocketAddr → Option ι) (seq : UInt64) (addr : SocketAddr) (net : Network ι)
    (as : List (Action ι)) (net' : Network ι) : Prop where
  ping : ∀ x ∈ net'.sent, x.2.seq = seq → x.2.kind = .ping → x.1 = addr
  ask : ∀ x ∈ net'.sent, x.2.seq = seq → ∀ t, x.2.kind = .pingReq t → t = addr
  ack : ∀ x ∈ net'.sent, x.2.seq = seq → x.2.kind = .ack → Answered listener seq addr net as
  probe : ∀ i p, (net'.nodes i).probe = some p → p.seq = seq → p.targetAddr = addr

variable {seq : UInt64} {addr : SocketAddr}

theorem Answered.concat_of_answers {net' : Network ι} (h : net' = run step net as)
    (ha : Answers listener seq addr net' a) : Answered listener seq addr net (as ++ [a]) :=
  ⟨as, a, [], rfl, h ▸ ha⟩

theorem OnTarget.emitted {x : SocketAddr × Frame} (h : OnTarget listener seq addr net as (run step net as))
    (hok : (run step net as).Allows listener a) (hnew : ∀ j, (j, seq) ∉ (run step net as).drawnBy a)
    (hx : x ∈ (run step net as).emits a) (hseq : x.2.seq = seq) :
    (x.2.kind = .ping → x.1 = addr) ∧ (∀ t, x.2.kind = .pingReq t → t = addr) ∧
      (x.2.kind = .ack → Answered listener seq addr net (as ++ [a])) := by
  cases a with
  | resend i o dest frame =>
    have hmem := hok.2
    rw [mem_singleton.mp hx] at hseq ⊢
    exact ⟨h.ping (dest, frame) hmem hseq, h.ask (dest, frame) hmem hseq,
      fun hk => (h.ack (dest, frame) hmem hseq hk).concat _⟩
  | event i e =>
    cases (mem_react hx).cause with
    | fresh hs hkind => exact absurd (mem_map.mpr ⟨_, hs, by rw [hseq]⟩) (hnew i)
    | @ask p hp hs hkind =>
      rw [hkind]
      refine ⟨nofun, fun t ht => ?_, nofun⟩
      cases ht
      exact h.probe i p hp (hs.symm.trans hseq)
    | @reply o clock now f he hs hf hkind =>
      subst he
      obtain ⟨a, hl, hmem⟩ := hok
      have hfs : f.seq = seq := hs.symm.trans hseq
      rw [hkind]
      refine ⟨nofun, nofun, fun _ => ?_⟩
      obtain rfl : a = addr := h.ping _ hmem hfs hf
      exact Answered.concat_of_answers rfl ⟨i, o, clock, now, f, x, rfl, hl, hf, hfs, hx, hkind, hseq⟩
    | @relay o clock now f he hs hf hkind =>
      subst he
      obtain ⟨a, -, hmem⟩ := hok
      rw [hkind]
      exact ⟨fun _ => h.ask _ hmem (hs.symm.trans hseq) _ hf, nofun, nofun⟩
    | @forward o clock now f he hs hf hkind =>
      subst he
      obtain ⟨a, -, hmem⟩ := hok
      rw [hkind]
      exact ⟨nofun, nofun, fun _ => (h.ack _ hmem (hs.symm.trans hseq) hf).concat _⟩

theorem OnTarget.step (h : OnTarget listener seq addr net as (run step net as))
    (hok : (run step net as).Allows listener a) (hnew : ∀ j, (j, seq) ∉ (run step net as).drawnBy a) :
    OnTarget listener seq addr net (as ++ [a]) ((run step net as).step a) := by
  refine ⟨fun x hx hs => ?_, fun x hx hs => ?_, fun x hx hs hk => ?_, fun i p hp hs => ?_⟩
  · rcases mem_append.mp hx with hx | hx
    · exact h.ping x hx hs
    · exact (h.emitted hok hnew hx hs).1
  · rcases mem_append.mp hx with hx | hx
    · exact h.ask x hx hs
    · exact (h.emitted hok hnew hx hs).2.1
  · rcases mem_append.mp hx with hx | hx
    · exact (h.ack x hx hs hk).concat a
    · exact (h.emitted hok hnew hx hs).2.2 hk
  · rcases step_probe hp with ⟨q, hq, hsame⟩ | ⟨e, rfl, hb⟩
    · exact hsame.2.2 ▸ h.probe i q hq (hsame.1.trans hs)
    · refine absurd (mem_map.mpr ⟨p.seq, ?_, by rw [hs]⟩) (hnew i)
      rw [hb.drawn]
      exact mem_cons_self

/-! ## From the beginning on -/

/-- One number is taken at one point of a run only. -/
theorem FreshNumbers.once {s : UInt64} {j : ι} {l l' r r' : List (Action ι)} {b b' : Action ι}
    (h : net.FreshNumbers as) (hl : as = l ++ b :: r) (hl' : as = l' ++ b' :: r')
    (hs : (i, s) ∈ (run step net l).drawnBy b) (hs' : (j, s) ∈ (run step net l').drawnBy b') :
    l = l' := by
  -- of two different points the later one would take a number that is no longer fresh
  have hnot : ∀ {i j : ι} {l l' r r' : List (Action ι)} {b b' : Action ι}, as = l ++ b :: r → as = l' ++ b' :: r' →
      (i, s) ∈ (run step net l).drawnBy b → (j, s) ∈ (run step net l').drawnBy b' →
        ¬ l.length < l'.length := by
    intro i j l l' r r' b b' hl hl' hs hs' hlt
    have hpre : l ++ [b] <+: l' := by
      refine @prefix_of_prefix_length_le _ _ _ as ⟨r, ?_⟩ ⟨b' :: r', hl'.symm⟩ ?_
      · rw [hl, append_assoc, singleton_append]
      · rw [length_append, length_singleton]
        exact hlt
    obtain ⟨t, ht⟩ := hpre
    have hfresh : net.FreshNumbers (l' ++ [b']) := by
      have h' : net.FreshNumbers ((l' ++ [b']) ++ r') := by
        rw [append_assoc, singleton_append, ← hl']
        exact h
      exact h'.left
    refine hfresh.fresh hs' i ?_
    rw [← ht, drawnIn_append, drawnIn_concat]
    exact mem_append_left _ (mem_append_right _ hs)
  have hpre : l <+: as := ⟨b :: r, hl.symm⟩
  have hpre' : l' <+: as := ⟨b' :: r', hl'.symm⟩
  have hlen : l.length = l'.length := le_antisymm (not_lt.mp (hnot hl' hl hs' hs)) (not_lt.mp (hnot hl hl' hs hs'))
  exact List.IsPrefix.eq_of_length (prefix_of_prefix_length_le hpre hpre' hlen.le) hlen

theorem onTarget_begins {before : List (Action ι)} (hu : Used net before (run step net before))
    (hf : net.FreshNumbers (before ++ [.event i e])) (hb : Begins ((run step net before).nodes i) e p) :
    OnTarget listener p.seq p.targetAddr (run step net (before ++ [.event i e])) []
      (run step net (before ++ [.event i e])) := by
  have hdrawn : (i, p.seq) ∈ (run step net before).drawnBy (.event i e) := by
    refine mem_map.mpr ⟨p.seq, ?_, rfl⟩
    rw [hb.drawn]
    exact mem_cons_self
  have hnew := hf.fresh hdrawn
  rw [run_concat]
  have hold : ∀ x ∈ (run step net before).sent, x.2.seq ≠ p.seq := by
    intro x hx hs
    obtain ⟨j, hj⟩ := hu.sent x hx
    exact hnew j (hs ▸ hj)
  have hping : ∀ x ∈ ((run step net before).step (.event i e)).sent, x.2.seq = p.seq →
      x.1 = p.targetAddr ∧ x.2.kind = .ping := by
    intro x hx hs
    rcases mem_append.mp hx with hx | hx
    · exact absurd hs (hold x hx)
    · obtain ⟨h1, -, h2⟩ := hb.sends x hx
      exact ⟨h1, h2⟩
  refine ⟨fun x hx hs _ => (hping x hx hs).1, fun x hx hs t ht => ?_, fun x hx hs hk => ?_, fun j q hq hs => ?_⟩
  · rw [(hping x hx hs).2] at ht
    cases ht
  · rw [(hping x hx hs).2] at hk
    cases hk
  · rcases step_probe hq with ⟨q', hq', hsame⟩ | ⟨e', he, hb'⟩
    · exact absurd (hs ▸ hsame.1 ▸ hu.probe j q' hq') (hnew j)
    · obtain ⟨rfl, rfl⟩ := Action.event.inj he
      have hqp : some q = some p := hb'.probe.symm.trans hb.probe
      rw [Option.some.inj hqp]

theorem onTarget {before after : List (Action ι)} (hu : Used net before (run step net before))
    (hf : net.FreshNumbers (before ++ .event i e :: after)) (hb : Begins ((run step net before).nodes i) e p)
    (hok : Permits (Allows listener) step (run step net (before ++ [.event i e])) after) :
    OnTarget listener p.seq p.targetAddr (run step net (before ++ [.event i e])) after
      (run step (run step net (before ++ [.event i e])) after) := by
  have hsplit : ∀ es, before ++ .event i e :: es = (before ++ [.event i e]) ++ es := by simp
  refine history_invariant
    (I := fun es net' => net.FreshNumbers (before ++ .event i e :: es) →
      OnTarget listener p.seq p.targetAddr (run step net (before ++ [.event i e])) es net') ?_ ?_ after hok hf
  · exact fun hf => onTarget_begins hu hf hb
  · intro es a hpermits ih hf
    have hf' : net.FreshNumbers ((before ++ .event i e :: es) ++ [a]) := by
      rw [append_assoc, cons_append]
      exact hf
    refine (ih hf'.left).step (permits_concat.mp hpermits).2 (fun j hj => ?_)
    -- the number was taken when the probe began
    rw [← run_append, ← hsplit] at hj
    refine hf'.fresh hj i ?_
    rw [hsplit, drawnIn_append, drawnIn_concat]
    refine mem_append_left _ (mem_append_right _ (mem_map.mpr ⟨p.seq, ?_, rfl⟩))
    rw [hb.drawn]
    exact mem_cons_self

end Network

end Pulsate.Cluster
