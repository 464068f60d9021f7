import Pulsate.Cluster.Lemmas.Join

/-!
# What a received frame does

Handling a frame is reconciling with it, and then what its kind asks for.
-/

namespace Pulsate.Cluster

open Pulsate.Lib Pulsate.Cluster.Runtime

variable {r : Runtime} {o : HashOrder} {clock : Nat → Instant} {now : Instant} {f : Frame}

/-! ## Parts that stay -/

theorem pingAll_keeps (o : HashOrder) (r : Runtime) (dests : List SocketAddr) :
    ∃ seq, (pingAll o r dests).1 = { r with seq := seq } := by
  induction dests generalizing r with
  | nil => exact ⟨r.seq, rfl⟩
  | cons addr dests ih =>
    obtain ⟨seq, h⟩ := ih r.nextSeq
    exact ⟨seq, h⟩

theorem gossipRound_keeps (r : Runtime) (o : HashOrder) :
    ∃ rng seq, (r.gossipRound o).1 = { r with rng := rng, seq := seq } := by
  obtain ⟨seq, h⟩ := pingAll_keeps o { r with rng := (r.gossipDests o).1 } (r.gossipDests o).2
  exact ⟨_, seq, h⟩

/-! ## Handling -/

/-- The runtime once it has reconciled with a frame, and the pings that a refutation sends. -/
def Runtime.heard (r : Runtime) (o : HashOrder) (clock : Nat → Instant) (f : Frame) : Runtime × Sent :=
  if (r.shared.reconcile r.config.suspicionTimeout clock f).2 then
    { r with shared := (r.shared.reconcile r.config.suspicionTimeout clock f).1 }.gossipRound o
  else ({ r with shared := (r.shared.reconcile r.config.suspicionTimeout clock f).1 }, [])

theorem heard_keeps (r : Runtime) (o : HashOrder) (clock : Nat → Instant) (f : Frame) :
    ∃ rng seq, (r.heard o clock f).1 =
      { r with shared := (r.shared.reconcile r.config.suspicionTimeout clock f).1, rng := rng, seq := seq } := by
  rw [heard]
  split
  · exact gossipRound_keeps _ o
  · exact ⟨r.rng, r.seq, rfl⟩

theorem heard_shared : (r.heard o clock f).1.shared = (r.shared.reconcile r.config.suspicionTimeout clock f).1 := by
  obtain ⟨rng, seq, h⟩ := heard_keeps r o clock f
  rw [h]

theorem handle_version (hv : f.version ≠ protocolVersion) : r.handle o clock now (some f) = (r, []) := by
  simp only [handle, if_pos hv]

/-- What a frame of each kind asks for once it has been reconciled. -/
def Runtime.answer (r : Runtime) (o : HashOrder) (now : Instant) (f : Frame) : Runtime × Sent :=
  match f.kind with
  | .ping => (r, r.send o f.senderAddr f.seq .ack)
  | .pingReq target =>
    let relay := ⟨f.senderAddr, target, now + r.config.probeTimeout * 2⟩
    ({ r with relays := r.relays.insert f.seq.toNat relay }, r.send o target f.seq .ping)
  | .ack => r.handleAck o f

theorem handle_eq (hv : f.version = protocolVersion) : r.handle o clock now (some f) =
    (((r.heard o clock f).1.answer o now f).1, (r.heard o clock f).2 ++ ((r.heard o clock f).1.answer o now f).2) := by
  simp only [handle, if_neg (not_not.mpr hv), answer]
  cases f.kind with
  | ping => rfl
  | pingReq target => rfl
  | ack => rfl

theorem forwardAck_keeps (r : Runtime) (o : HashOrder) (f : Frame) :
    ∃ relays, (r.forwardAck o f).1 = { r with relays := relays } := by
  unfold forwardAck
  split
  · dsimp only
    split
    · exact ⟨_, rfl⟩
    · exact ⟨_, rfl⟩
  · exact ⟨r.relays, rfl⟩

theorem reapSuspects_keeps_rest (r : Runtime) (o : HashOrder) (now : Instant) :
    ∃ rng seq, (r.reapSuspects o now).1 =
      { r with shared := (r.shared.reapSuspects now).1, rng := rng, seq := seq } := by
  unfold reapSuspects
  dsimp only
  split
  · exact gossipRound_keeps _ o
  · exact ⟨r.rng, r.seq, rfl⟩

theorem completeProbe_cases (r : Runtime) (seq : UInt64) :
    (∃ p, r.probe = some p ∧ p.seq = seq ∧ r.completeProbe seq = { r with probe := none }.markAlive p.target) ∨
      ((∀ p ∈ r.probe, p.seq ≠ seq) ∧ r.completeProbe seq = r) := by
  unfold completeProbe
  cases hp : r.probe with
  | none => exact .inr ⟨nofun, rfl⟩
  | some p =>
    dsimp only
    split
    next hseq => exact .inl ⟨p, rfl, hseq, rfl⟩
    next hseq => exact .inr ⟨fun q hq => Option.some.inj hq ▸ hseq, rfl⟩

/-! ## What an event does -/

/-- The peers that may be probed, by name. -/
def Shared.candidates (s : Shared) (o : HashOrder) : List (NodeId × SocketAddr) :=
  ((s.livePeers o).map (fun e => (e.1, e.2.addr))).mergeSort (fun a b => a.1 ≤ b.1)

/-- All that an event can do to a runtime, but for the random choices, numbers and relays on the way. -/
inductive Turns (r : Runtime) : Event → Runtime → Prop
  | ignored {o : HashOrder} {clock : Nat → Instant} {now : Instant} {d : Option Frame}
      (hd : ∀ f ∈ d, f.version ≠ protocolVersion) : Turns r (.handle o clock now d) r
  | heard {o : HashOrder} {clock : Nat → Instant} {now : Instant} {f : Frame} (hv : f.version = protocolVersion)
      (hack : ∀ p ∈ r.probe, f.kind = .ack → f.seq ≠ p.seq) (relays : OrdMap Nat Relay) (rng seq : UInt64) :
      Turns r (.handle o clock now (some f))
        { r with
          shared := (r.shared.reconcile r.config.suspicionTimeout clock f).1
          relays := relays, rng := rng, seq := seq }
  | acked {o : HashOrder} {clock : Nat → Instant} {now : Instant} {f : Frame} {p : Probe}
      (hv : f.version = protocolVersion) (hp : r.probe = some p) (hkind : f.kind = .ack) (hseq : f.seq = p.seq)
      (relays : OrdMap Nat Relay) (rng seq : UInt64) :
      Turns r (.handle o clock now (some f))
        { r with
          shared := (r.shared.reconcile r.config.suspicionTimeout clock f).1.markAlive p.target
          probe := none, relays := relays, rng := rng, seq := seq }
  | reaped {o : HashOrder} {now : Instant} (rng seq : UInt64) :
      Turns r (.reapSuspects o now) { r with shared := (r.shared.reapSuspects now).1, rng := rng, seq := seq }
  | waited {o : HashOrder} {now : Instant} : Turns r (.advanceProbe o now) r
  | asked {o : HashOrder} {now : Instant} {p : Probe} (hp : r.probe = some p) (hdue : p.deadline ≤ now)
      (hphase : p.phase = .direct) (rng : UInt64) :
      Turns r (.advanceProbe o now)
        { r with rng := rng, probe := some { p with phase := .indirect, deadline := now + r.config.probeTimeout } }
  | suspected {o : HashOrder} {now : Instant} {p : Probe} (hp : r.probe = some p) (hdue : p.deadline ≤ now)
      (hphase : p.phase = .indirect) (rng seq : UInt64) :
      Turns r (.advanceProbe o now)
        { r with
          shared := r.shared.markSuspect r.config.suspicionTimeout p.target now
          probe := none, rng := rng, seq := seq }
  | busy {o : HashOrder} {now : Instant} (hidle : r.probe = none → r.shared.livePeers o = []) :
      Turns r (.startProbe o now) r
  | probed {o : HashOrder} {now : Instant} {node : NodeId} {addr : SocketAddr} (hnone : r.probe = none)
      (hnext : (r.shared.candidates o)[r.roundRobin.toNat % (r.shared.candidates o).length]? = some (node, addr)) :
      Turns r (.startProbe o now)
        { r with
          roundRobin := r.roundRobin + 1, seq := r.seq + 1
          probe := some ⟨r.seq + 1, node, addr, .direct, now + r.config.probeTimeout⟩ }
  | gossiped {o : HashOrder} (rng seq : UInt64) : Turns r (.gossipRound o) { r with rng := rng, seq := seq }
  | markedSuspect {node : NodeId} {now : Instant} : Turns r (.markSuspect node now) (r.markSuspect node now)
  | markedAlive {node : NodeId} : Turns r (.markAlive node) (r.markAlive node)
  | expired {now : Instant} : Turns r (.expireRelays now) (r.expireRelays now)
  | counted {n : Nat} : Turns r (.incr n) (r.incr n)

theorem handle_turns (r : Runtime) (o : HashOrder) (clock : Nat → Instant) (now : Instant) (d : Option Frame) :
    Turns r (.handle o clock now d) (r.handle o clock now d).1 := by
  cases d with
  | none => exact .ignored nofun
  | some f =>
    by_cases hv : f.version = protocolVersion
    · obtain ⟨rng, seq, h⟩ := heard_keeps r o clock f
      rw [handle_eq hv, answer, h]
      cases hk : f.kind with
      | ping => exact .heard hv (fun _ _ hack => nomatch hk.symm.trans hack) r.relays rng seq
      | pingReq target => exact .heard hv (fun _ _ hack => nomatch hk.symm.trans hack) _ rng seq
      | ack =>
        dsimp only
        obtain ⟨relays, hf⟩ := forwardAck_keeps (completeProbe _ f.seq) o f
        rw [handleAck, hf]
        rcases completeProbe_cases _ f.seq with ⟨p, hp, hseq, hc⟩ | ⟨hne, hc⟩
        · rw [hc]
          exact .acked (r := r) hv hp hk hseq.symm relays rng seq
        · rw [hc]
          exact .heard (r := r) hv (fun p hp _ he => hne p hp he.symm) relays rng seq
    · rw [handle_version hv]
      exact .ignored (fun g hg => Option.some.inj hg ▸ hv)

theorem advanceProbe_turns (r : Runtime) (o : HashOrder) (now : Instant) :
    Turns r (.advanceProbe o now) (r.advanceProbe o now).1 := by
  unfold advanceProbe
  cases hp : r.probe with
  | none => exact .waited
  | some p =>
    dsimp only
    split
    · exact .waited
    · rename_i hdue
      cases hphase : p.phase with
      | direct => exact .asked hp (not_lt.mp hdue) hphase _
      | indirect =>
        obtain ⟨rng, seq, h⟩ := gossipRound_keeps ({ r with probe := none }.markSuspect p.target now) o
        dsimp only
        rw [h]
        exact .suspected hp (not_lt.mp hdue) hphase rng seq

theorem startProbe_turns (r : Runtime) (o : HashOrder) (now : Instant) :
    Turns r (.startProbe o now) (r.startProbe o now).1 := by
  unfold startProbe
  split
  · rename_i hsome
    exact .busy (fun hnone => by simp [hnone] at hsome)
  · rename_i hnone
    have hnone : r.probe = none := by simpa using hnone
    dsimp only
    split
    · rename_i hget
      -- the index is taken modulo the number of candidates, so there are none
      refine .busy (fun _ => List.eq_nil_of_length_eq_zero ?_)
      rw [List.getElem?_eq_none_iff, List.length_mergeSort, List.length_map] at hget
      by_contra hpos
      exact absurd (Nat.mod_lt _ (Nat.pos_of_ne_zero hpos)) (not_lt.mpr hget)
    · rename_i hget
      exact .probed hnone hget

theorem startProbe_shared (r : Runtime) (o : HashOrder) (now : Instant) :
    (r.startProbe o now).1.shared = r.shared := by
  have h := startProbe_turns r o now
  generalize (r.startProbe o now).1 = r' at h ⊢
  cases h <;> rfl

theorem turns (r : Runtime) (e : Event) : Turns r e (r.step e) := by
  cases e with
  | handle o clock now d => exact handle_turns r o clock now d
  | reapSuspects o now =>
    obtain ⟨rng, seq, h⟩ := reapSuspects_keeps_rest r o now
    rw [step, react, h]
    exact .reaped rng seq
  | advanceProbe o now => exact advanceProbe_turns r o now
  | startProbe o now => exact startProbe_turns r o now
  | gossipRound o =>
    obtain ⟨rng, seq, h⟩ := gossipRound_keeps r o
    rw [step, react, h]
    exact .gossiped rng seq
  | markSuspect node now => exact .markedSuspect
  | markAlive node => exact .markedAlive
  | expireRelays now => exact .expired
  | incr n => exact .counted

theorem step_config (r : Runtime) (e : Event) : (r.step e).config = r.config := by
  have h := turns r e
  generalize r.step e = r' at h ⊢
  cases h <;> rfl

/-- The shared state after a frame: reconciled with it, and the target of the probe alive if the frame answers it. -/
theorem handle_shared (hv : f.version = protocolVersion) : (r.handle o clock now (some f)).1.shared =
    (r.shared.reconcile r.config.suspicionTimeout clock f).1 ∨
      ∃ node, (r.handle o clock now (some f)).1.shared =
        (r.shared.reconcile r.config.suspicionTimeout clock f).1.markAlive node := by
  have h := handle_turns r o clock now (some f)
  generalize (r.handle o clock now (some f)).1 = r' at h ⊢
  cases h with
  | ignored hd => exact absurd hv (hd f rfl)
  | heard => exact .inl rfl
  | acked => exact .inr ⟨_, rfl⟩

/-! ## The incarnation and the counter -/

theorem markAlive_counter (s : Shared) (n : NodeId) : (s.markAlive n).counter = s.counter := by
  unfold Shared.markAlive
  split
  · split <;> rfl
  · rfl

theorem handle_incarnation (hv : f.version = protocolVersion) : (r.handle o clock now (some f)).1.shared.incarnation =
    (r.shared.reconcile r.config.suspicionTimeout clock f).1.incarnation := by
  rcases @handle_shared r o clock now f hv with h | ⟨node, h⟩
  · rw [h]
  · rw [h, markAlive_incarnation]

theorem applyUpdates_counter {s : Shared} {timeout : Nat} {us : List MemberUpdate} :
    (Shared.applyUpdates timeout clock s us).1.counter = s.counter := by
  induction us generalizing s with
  | nil => rfl
  | cons u us ih => exact ih.trans (counter_applyUpdate timeout _)

theorem reconcile_counter {s : Shared} {timeout : Nat} :
    (s.reconcile timeout clock f).1.counter = s.counter.merge f.counter :=
  congrArg (GCounter.merge · f.counter) applyUpdates_counter

theorem handle_counter (hv : f.version = protocolVersion) :
    (r.handle o clock now (some f)).1.shared.counter = r.shared.counter.merge f.counter := by
  rcases @handle_shared r o clock now f hv with h | ⟨node, h⟩
  · rw [h, reconcile_counter]
  · rw [h, markAlive_counter, reconcile_counter]

theorem markAlive_me (s : Shared) (n : NodeId) : (s.markAlive n).me = s.me := by
  unfold Shared.markAlive
  split
  · split <;> rfl
  · rfl

theorem markAlive_none {s : Shared} {n m : NodeId} (h : s.peers.get? m = none) : (s.markAlive n).peers.get? m = none := by
  unfold Shared.markAlive
  split
  · rename_i p hp
    have hne : m ≠ n := by
      rintro rfl
      rw [h] at hp
      cases hp
    split
    · exact (OrdMap.get?_insert_ne _ _ hne).trans h
    · exact h
  · exact h

theorem markSuspect_me (s : Shared) (timeout : Nat) (n : NodeId) (now : Instant) : (s.markSuspect timeout n now).me = s.me := by
  unfold Shared.markSuspect
  split
  · split <;> rfl
  · rfl

theorem Move.me {s s' : Shared} (h : Move s s') : s'.me = s.me := by
  cases h with
  | update timeout now u => exact applyUpdate_me timeout now
  | counter c => rfl
  | reap now => rfl
  | suspect timeout node now => exact markSuspect_me s timeout node now
  | alive node => exact markAlive_me s node

theorem me_of_moves {s s' : Shared} (h : Moves s s') : s'.me = s.me := by
  induction h with
  | refl => rfl
  | tail _ hmove ih => exact hmove.me.trans ih

theorem handle_me : (r.handle o clock now (some f)).1.shared.me = r.shared.me :=
  me_of_moves (handle_reaches r o clock now (some f)).state

theorem handle_self (hv : f.version = protocolVersion) (h : r.shared.peers.get? r.shared.me = none) :
    (r.handle o clock now (some f)).1.shared.peers.get? r.shared.me = none := by
  have hrec : (r.shared.reconcile r.config.suspicionTimeout clock f).1.peers.get? r.shared.me = none := by
    rw [← Shared.record_eq_bot, record_reconcile, Pi.sup_apply, tells_self, Shared.record_none h, sup_bot_eq]
  rcases @handle_shared r o clock now f hv with he | ⟨node, he⟩
  · rw [he]
    exact hrec
  · rw [he]
    exact markAlive_none hrec

/-! ## The outstanding probe -/

/-- A frame leaves the probe alone, unless it is an ack with the probe's number. -/
theorem handle_probe (r : Runtime) (o : HashOrder) (clock : Nat → Instant) (now : Instant) (d : Option Frame) :
    (r.handle o clock now d).1.probe = r.probe ∨
      ∃ p f, r.probe = some p ∧ d = some f ∧ f.kind = .ack ∧ f.seq = p.seq ∧
        (r.handle o clock now d).1.probe = none := by
  have h := handle_turns r o clock now d
  generalize (r.handle o clock now d).1 = r' at h ⊢
  cases h with
  | ignored => exact .inl rfl
  | heard => exact .inl rfl
  | acked hv hp hkind hseq => exact .inr ⟨_, _, hp, rfl, hkind, hseq, rfl⟩

/-- A probe that is outstanding after an event was so before and has not been answered, perhaps in its first phase;
or the event begins it. -/
theorem step_probe_cases {e : Event} {p : Probe} (h : (r.step e).probe = some p) :
    (r.probe = some p ∧ ¬ e.Acks p.seq) ∨
      (∃ o now q, e = .advanceProbe o now ∧ r.probe = some q ∧ q.phase = .direct ∧ q.deadline ≤ now ∧
        p = { q with phase := .indirect, deadline := now + r.config.probeTimeout }) ∨
      (∃ o now, e = .startProbe o now ∧ r.probe = none ∧ p.phase = .direct ∧
        p.deadline = now + r.config.probeTimeout) := by
  have ht := turns r e
  generalize r.step e = r' at h ht
  cases ht with
  | @ignored o clock now d hd =>
    cases d with
    | none => exact .inl ⟨h, id⟩
    | some f => exact .inl ⟨h, fun hacks => hd f rfl hacks.1⟩
  | heard hv hack => exact .inl ⟨h, fun hacks => hack p h hacks.2.1 hacks.2.2⟩
  | acked => cases h
  | asked hp hdue hphase => exact .inr (.inl ⟨_, _, _, rfl, hp, hphase, hdue, (Option.some.inj h).symm⟩)
  | suspected => cases h
  | probed hnone =>
    cases h
    exact .inr (.inr ⟨_, _, rfl, hnone, rfl, rfl⟩)
  | _ => exact .inl ⟨h, id⟩

end Pulsate.Cluster
