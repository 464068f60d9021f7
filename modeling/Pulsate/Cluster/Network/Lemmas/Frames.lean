import Pulsate.Cluster.Lemmas.Counter
import Pulsate.Cluster.Network.Model

/-!
# Why a node sends what it sends

Every frame carries a number its sender has just taken, or that of its outstanding probe, or that of the frame
it answers. The lemmas here go through the steps of the runtime once.
-/

namespace Pulsate.Cluster

open Pulsate.Lib List Pulsate.Cluster.Runtime

variable {r : Runtime} {e : Event} {o : HashOrder} {x : SocketAddr × Frame}

/-- Why a step sends a datagram. -/
inductive Cause (r : Runtime) (e : Event) (x : SocketAddr × Frame) : Prop
  | fresh (hseq : x.2.seq ∈ r.drawn e) (hkind : x.2.kind = .ping)
  | ask {p : Probe} (hp : r.probe = some p) (hseq : x.2.seq = p.seq) (hkind : x.2.kind = .pingReq p.targetAddr)
  | reply {o : HashOrder} {clock : Nat → Instant} {now : Instant} {f : Frame}
      (he : e = .handle o clock now (some f)) (hseq : x.2.seq = f.seq) (hf : f.kind = .ping) (hkind : x.2.kind = .ack)
  | relay {o : HashOrder} {clock : Nat → Instant} {now : Instant} {f : Frame}
      (he : e = .handle o clock now (some f)) (hseq : x.2.seq = f.seq) (hf : f.kind = .pingReq x.1)
      (hkind : x.2.kind = .ping)
  | forward {o : HashOrder} {clock : Nat → Instant} {now : Instant} {f : Frame}
      (he : e = .handle o clock now (some f)) (hseq : x.2.seq = f.seq) (hf : f.kind = .ack) (hkind : x.2.kind = .ack)

/-- A datagram of a step is a snapshot of a state with the counter the step leaves, and has a cause. -/
structure Emission (r : Runtime) (e : Event) (x : SocketAddr × Frame) : Prop where
  taken : ∃ (s : Shared) (o : HashOrder), x.2 = s.snapshot o x.2.seq x.2.kind ∧ s.counter = (r.step e).shared.counter
  cause : Cause r e x

/-! ## Gossip rounds -/

theorem mem_pingAll {dests : List SocketAddr} (h : x ∈ (pingAll o r dests).2) :
    x.2.seq ∈ numbersAfter r.seq dests.length ∧ x.2 = r.shared.snapshot o x.2.seq .ping := by
  induction dests generalizing r with
  | nil => cases h
  | cons addr dests ih =>
    rcases mem_append.mp h with h | h
    · rw [mem_singleton.mp h]
      exact ⟨mem_cons_self, rfl⟩
    · obtain ⟨hseq, hsnap⟩ := ih (r := r.nextSeq) h
      exact ⟨mem_cons_of_mem _ hseq, hsnap⟩

theorem mem_gossipRound (h : x ∈ (r.gossipRound o).2) :
    x.2.seq ∈ numbersAfter r.seq (r.gossipDests o).2.length ∧ x.2 = r.shared.snapshot o x.2.seq .ping :=
  mem_pingAll (r := { r with rng := (r.gossipDests o).1 }) h

theorem Emission.gossip {r' : Runtime} (hdrawn : r.drawn e = numbersAfter r'.seq (r'.gossipDests o).2.length)
    (hcounter : r'.shared.counter = (r.step e).shared.counter) (h : x ∈ (r'.gossipRound o).2) : Emission r e x := by
  obtain ⟨hseq, hsnap⟩ := mem_gossipRound h
  have hkind : x.2.kind = .ping := congrArg Frame.kind hsnap
  refine ⟨⟨r'.shared, o, ?_, hcounter⟩, .fresh (hdrawn ▸ hseq) hkind⟩
  rw [hkind]
  exact hsnap

/-! ## Frames -/

section Handle

variable {clock : Nat → Instant} {now : Instant} {f : Frame}

theorem heard_counter : (r.heard o clock f).1.shared.counter = r.shared.counter.merge f.counter := by
  rw [heard_shared, reconcile_counter]

theorem mem_heard (hv : f.version = protocolVersion) (h : x ∈ (r.heard o clock f).2) :
    Emission r (.handle o clock now (some f)) x := by
  have hcounter : (r.step (.handle o clock now (some f))).shared.counter = r.shared.counter.merge f.counter :=
    handle_counter hv
  rw [heard] at h
  split at h
  · rename_i href
    refine Emission.gossip ?_ ?_ h
    · simp only [drawn, draws, if_neg (not_not.mpr hv), href, if_true]
    · rw [hcounter]
      exact reconcile_counter
  · cases h

theorem mem_forwardAck (h : x ∈ (r.forwardAck o f).2) : x.2 = r.shared.snapshot o f.seq .ack := by
  unfold forwardAck at h
  split at h
  · dsimp only at h
    split at h
    · rw [mem_singleton.mp h]
    · cases h
  · cases h

theorem completeProbe_counter (seq : UInt64) : (r.completeProbe seq).shared.counter = r.shared.counter := by
  unfold completeProbe
  split
  · split
    · exact markAlive_counter _ _
    · rfl
  · rfl

theorem mem_answer (hv : f.version = protocolVersion) (h : x ∈ ((r.heard o clock f).1.answer o now f).2) :
    Emission r (.handle o clock now (some f)) x := by
  have hcounter : (r.step (.handle o clock now (some f))).shared.counter = r.shared.counter.merge f.counter :=
    handle_counter hv
  rw [answer] at h
  cases hk : f.kind with
  | ping =>
    simp only [hk] at h
    rw [mem_singleton.mp h]
    exact ⟨⟨(r.heard o clock f).1.shared, o, rfl, by rw [hcounter, heard_counter]⟩, .reply rfl rfl hk rfl⟩
  | pingReq target =>
    simp only [hk] at h
    rw [mem_singleton.mp h]
    exact ⟨⟨(r.heard o clock f).1.shared, o, rfl, by rw [hcounter, heard_counter]⟩, .relay rfl rfl hk rfl⟩
  | ack =>
    simp only [hk] at h
    have hsnap := mem_forwardAck h
    have hseq : x.2.seq = f.seq := by rw [hsnap]; rfl
    have hkind : x.2.kind = .ack := by rw [hsnap]; rfl
    refine ⟨⟨((r.heard o clock f).1.completeProbe f.seq).shared, o, ?_, ?_⟩, .forward rfl hseq hk hkind⟩
    · rw [hseq, hkind]
      exact hsnap
    · rw [hcounter, completeProbe_counter, heard_counter]

theorem mem_handle (h : x ∈ (r.handle o clock now (some f)).2) : Emission r (.handle o clock now (some f)) x := by
  by_cases hv : f.version = protocolVersion
  · rw [handle_eq hv] at h
    rcases mem_append.mp h with h | h
    · exact mem_heard hv h
    · exact mem_answer hv h
  · rw [handle_version hv] at h
    cases h

end Handle

/-! ## Every step -/

theorem mem_reapSuspects {now : Instant} (h : x ∈ (r.reapSuspects o now).2) : Emission r (.reapSuspects o now) x := by
  have hcounter := step_counter_other r (.reapSuspects o now) (by nofun) (by nofun)
  rw [reapSuspects] at h
  dsimp only at h
  split at h
  · rename_i hdied
    refine Emission.gossip ?_ ?_ h
    · simp only [drawn, draws, hdied, if_true]
    · rw [hcounter]
      rfl
  · cases h

theorem mem_advanceProbe {now : Instant} (h : x ∈ (r.advanceProbe o now).2) : Emission r (.advanceProbe o now) x := by
  have hcounter := step_counter_other r (.advanceProbe o now) (by nofun) (by nofun)
  rw [advanceProbe] at h
  split at h
  · cases h
  · rename_i p hp
    split at h
    · cases h
    · rename_i hdue
      split at h
      · obtain ⟨addr, -, h⟩ := mem_flatMap.mp h
        rw [mem_singleton.mp h]
        exact ⟨⟨r.shared, o, rfl, hcounter.symm⟩, .ask hp rfl rfl⟩
      · rename_i hphase
        refine Emission.gossip ?_ ?_ h
        · simp only [drawn, draws, hp, if_neg hdue, hphase]
          rfl
        · rw [hcounter]
          exact markSuspect_counter _ _ _ _

theorem numbersAfter_one (seq : UInt64) : numbersAfter seq 1 = [seq + 1] := rfl

theorem startProbe_cases (r : Runtime) (o : HashOrder) (now : Instant) :
    (r.startProbe o now = (r, []) ∧ r.draws (.startProbe o now) = 0) ∨
      ∃ node peer, r.probe = none ∧ r.shared.peers.get? node = some peer ∧
        r.drawn (.startProbe o now) = [r.seq + 1] ∧
        (r.step (.startProbe o now)).probe =
          some ⟨r.seq + 1, node, peer.addr, .direct, now + r.config.probeTimeout⟩ ∧
        (r.step (.startProbe o now)).seq = r.seq + 1 ∧
        (r.react (.startProbe o now)).2 = [(peer.addr, r.shared.snapshot o (r.seq + 1) .ping)] := by
  simp only [step, react]
  rw [startProbe]
  by_cases hprobe : r.probe.isSome
  · exact .inl ⟨by rw [if_pos hprobe], by rw [draws, if_pos hprobe]⟩
  · rw [if_neg hprobe]
    dsimp only
    split
    · rename_i hget
      -- the index is taken modulo the number of candidates, so there are none
      have hempty : (r.shared.livePeers o).isEmpty := by
        rw [getElem?_eq_none_iff, length_mergeSort, length_map] at hget
        rw [isEmpty_iff_length_eq_zero]
        by_contra hpos
        exact absurd (Nat.mod_lt _ (Nat.pos_of_ne_zero hpos)) (not_lt.mpr hget)
      exact .inl ⟨rfl, by rw [draws, if_neg hprobe, if_pos hempty]⟩
    · rename_i node addr hget
      have hmem := mem_of_getElem? hget
      rw [mem_mergeSort] at hmem
      obtain ⟨⟨n, peer⟩, he, heq⟩ := mem_map.mp hmem
      obtain ⟨rfl, rfl⟩ := Prod.mk.inj heq
      have hpeer : r.shared.peers.get? n = some peer := by
        rw [← OrdMap.mem_entries_iff]
        exact (o.perm _).mem_iff.mp (mem_filter.mp he).1
      have hne : (r.shared.livePeers o).isEmpty = false := by
        rw [isEmpty_eq_false_iff]
        exact ne_nil_of_mem he
      have hdrawn : r.drawn (.startProbe o now) = [r.seq + 1] := by
        simp only [drawn, draws, if_neg hprobe, hne, Bool.false_eq_true, if_false, numbersAfter_one]
      exact .inr ⟨n, peer, by simpa using hprobe, hpeer, hdrawn, rfl, rfl, rfl⟩

theorem mem_startProbe {now : Instant} (h : x ∈ (r.react (.startProbe o now)).2) :
    Emission r (.startProbe o now) x := by
  have hcounter := step_counter_other r (.startProbe o now) (by nofun) (by nofun)
  rcases startProbe_cases r o now with ⟨hnone, -⟩ | ⟨node, peer, -, -, hdrawn, -, -, hsent⟩
  · rw [react, hnone] at h
    cases h
  · rw [hsent] at h
    rw [mem_singleton.mp h]
    refine ⟨⟨r.shared, o, rfl, hcounter.symm⟩, .fresh ?_ rfl⟩
    rw [hdrawn]
    exact mem_cons_self

theorem mem_react (h : x ∈ (r.react e).2) : Emission r e x := by
  cases e with
  | handle o clock now d =>
    cases d with
    | none => cases h
    | some f => exact mem_handle h
  | reapSuspects o now => exact mem_reapSuspects h
  | advanceProbe o now => exact mem_advanceProbe h
  | startProbe o now => exact mem_startProbe h
  | gossipRound o => exact Emission.gossip rfl (step_counter_other r _ (by nofun) (by nofun)).symm h
  | markSuspect node now => cases h
  | markAlive node => cases h
  | expireRelays now => cases h
  | incr n => cases h

end Pulsate.Cluster
