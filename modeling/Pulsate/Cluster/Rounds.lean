import Mathlib.Data.Finset.Sort
import Mathlib.Data.List.Rotate
import Pulsate.Cluster.Lemmas.Handle

/-!
# Probing in turn

While the live peers stay the same, the targets of the probes run through the sorted list of their names, round after round.
-/

namespace Pulsate.Cluster

open Lib List OrdMap Pulsate.Cluster.Runtime

/-- A peer that may be probed. -/
def Shared.IsLive (s : Shared) (node : NodeId) : Prop := ∃ p, s.peers.get? node = some p ∧ p.state ≠ .dead

namespace Runtime

/-- The target of the probe that an event starts: none was outstanding before it, and one is after it. -/
def started (r : Runtime) : Event → List NodeId
  | .startProbe o now => if r.probe.isNone then ((r.step (.startProbe o now)).probe.map (·.target)).toList else []
  | _ => []

/-- The targets of the probes that are started in a run, in order. -/
def targets : Runtime → List Event → List NodeId
  | _, [] => []
  | r, e :: es => r.started e ++ targets (r.step e) es

end Runtime

variable {r : Runtime} {s : Shared} {o : HashOrder} {peers : Finset NodeId}

theorem mem_livePeers {node : NodeId} : node ∈ (s.livePeers o).map Prod.fst ↔ s.IsLive node := by
  simp only [Shared.livePeers, Shared.iter, Shared.IsLive, mem_map, mem_filter, (o.perm _).mem_iff, Prod.exists,
    exists_and_right, exists_eq_right, mem_entries_iff, decide_eq_true_eq]

theorem candidates_eq (h : ∀ node, s.IsLive node ↔ node ∈ peers) : (s.candidates o).map Prod.fst = peers.sort := by
  have hperm : ((s.candidates o).map Prod.fst).Perm ((s.livePeers o).map Prod.fst) := by
    refine ((mergeSort_perm _ _).map Prod.fst).trans ?_
    rw [map_map]
    rfl
  have hnodup : ((s.livePeers o).map Prod.fst).Nodup := by
    refine List.Nodup.sublist ((filter_sublist).map Prod.fst) ?_
    exact ((o.perm s.peers.entries).map Prod.fst).nodup_iff.mpr s.peers.nodup_keys
  have hsorted : ((s.candidates o).map Prod.fst).Pairwise (· ≤ ·) := by
    refine pairwise_map.mpr ((pairwise_mergeSort ?_ ?_ _).imp of_decide_eq_true)
    · intro a b c hab hbc
      exact decide_eq_true ((of_decide_eq_true hab).trans (of_decide_eq_true hbc))
    · intro a b
      simpa using le_total a.1 b.1
  refine List.Perm.eq_of_pairwise (fun a b _ _ => le_antisymm) hsorted (Finset.pairwise_sort peers (· ≤ ·)) (hperm.trans ?_)
  refine (perm_ext_iff_of_nodup hnodup (Finset.sort_nodup ..)).mpr (fun node => ?_)
  rw [mem_livePeers, h, Finset.mem_sort]

/-- What an event does about the next target: nothing, or it takes the one whose turn it is. -/
theorem started_cases (h : ∀ node, r.shared.IsLive node ↔ node ∈ peers) (e : Event) :
    (r.started e = [] ∧ (r.step e).roundRobin = r.roundRobin) ∨
      ∃ node, r.started e = [node] ∧ peers.sort[r.roundRobin.toNat % peers.sort.length]? = some node ∧
        (r.step e).roundRobin = r.roundRobin + 1 := by
  have hturns := turns r e
  cases e with
  | startProbe o now =>
    dsimp only [started]
    generalize r.step (.startProbe o now) = r' at hturns ⊢
    cases hturns with
    | busy => exact .inl ⟨by cases r.probe <;> rfl, rfl⟩
    | @probed _ _ node addr hnone hnext =>
      refine .inr ⟨node, by rw [hnone]; rfl, ?_, rfl⟩
      rw [← candidates_eq h, length_map, getElem?_map, hnext]
      rfl
  | _ =>
    refine .inl ⟨rfl, ?_⟩
    generalize r.step _ = r' at hturns ⊢
    cases hturns <;> rfl

/-- The targets are the names in turn, from the one the counter stands at. -/
theorem getElem?_targets (es : List Event) (hsteady : ∀ pre, pre <+: es → ∀ node,
      (run step r pre).shared.IsLive node ↔ node ∈ peers)
    (hwrap : r.roundRobin.toNat + (r.targets es).length < 2 ^ 64) {i : Nat} (hi : i < (r.targets es).length) :
    (r.targets es)[i]? = peers.sort[(i + r.roundRobin.toNat) % peers.sort.length]? := by
  induction es generalizing r i with
  | nil => cases hi
  | cons e es ih =>
    have hnext : ∀ pre, pre <+: es → ∀ node, (run step (r.step e) pre).shared.IsLive node ↔ node ∈ peers :=
      fun pre hpre => hsteady (e :: pre) (cons_prefix_cons.mpr ⟨rfl, hpre⟩)
    rw [targets] at hwrap hi ⊢
    rcases started_cases (r := r) (hsteady [] nil_prefix) e with ⟨hnone, hrr⟩ | ⟨node, hone, hturn, hrr⟩
    · rw [hnone, nil_append] at hwrap hi ⊢
      rw [← hrr] at hwrap ⊢
      exact ih hnext hwrap hi
    · rw [hone, singleton_append] at hwrap hi ⊢
      rw [length_cons] at hwrap hi
      have hsucc : (r.step e).roundRobin.toNat = r.roundRobin.toNat + 1 := by
        rw [hrr, UInt64.toNat_add]
        exact Nat.mod_eq_of_lt (by simp only [UInt64.reduceToNat]; omega)
      cases i with
      | zero => rw [Nat.zero_add, hturn]; rfl
      | succ i =>
        have hrest := ih hnext (by omega) (i := i) (by omega)
        rw [getElem?_cons_succ, hrest, hsucc]
        congr 2
        omega

/-- While the peers that are not dead stay the same and the counter does not wrap around, any probes in a row, as many as there
are peers, go to each of them once. Where a probe is outstanding, none is started and the counter stays. -/
theorem probes_in_turn (r : Runtime) (es : List Event) (peers : Finset NodeId)
    (hsteady : ∀ pre, pre <+: es → ∀ node, (run step r pre).shared.IsLive node ↔ node ∈ peers)
    (hwrap : r.roundRobin.toNat + (r.targets es).length < 2 ^ 64) :
    (∀ i, i + peers.card ≤ (r.targets es).length →
      (((r.targets es).drop i).take peers.card).Nodup ∧ (((r.targets es).drop i).take peers.card).toFinset = peers) ∧
      ∀ pre o now, pre ++ [.startProbe o now] <+: es → (run step r pre).probe.isSome →
        (run step r pre).react (.startProbe o now) = (run step r pre, []) := by
  constructor
  · intro i hi
    have hwindow : ((r.targets es).drop i).take peers.card = peers.sort.rotate (i + r.roundRobin.toNat) := by
      have hlen : peers.sort.length = peers.card := Finset.length_sort ..
      apply ext_getElem?
      intro j
      by_cases hj : j < peers.card
      · rw [getElem?_take_of_lt hj, getElem?_drop, getElem?_targets es hsteady hwrap (by omega),
          getElem?_rotate (hlen ▸ hj), Nat.add_left_comm, Nat.add_assoc]
      · rw [getElem?_eq_none, getElem?_eq_none]
        · rw [length_rotate]
          omega
        · rw [length_take]
          omega
    rw [hwindow]
    exact ⟨nodup_rotate.mpr (Finset.sort_nodup ..), by ext node; simp⟩
  · intro pre o now _ hprobe
    rw [react, startProbe, if_pos hprobe]

theorem step_startProbe {now : Instant} {node : NodeId} {addr : SocketAddr} (hnone : r.probe = none)
    (hnext : (r.shared.candidates o)[r.roundRobin.toNat % (r.shared.candidates o).length]? = some (node, addr)) :
    r.step (.startProbe o now) = { r with
      roundRobin := r.roundRobin + 1, seq := r.seq + 1
      probe := some ⟨r.seq + 1, node, addr, .direct, now + r.config.probeTimeout⟩ } := by
  unfold Shared.candidates at hnext
  rw [step, react, startProbe, hnone]
  simp only [hnext]
  rfl

/-- A node that knows two peers. -/
def twoPeers : Runtime :=
  { new ⟨[], 3, 30, 3, 3⟩ "a" (.v4 1 7946) 5 with
    shared := { Shared.new "a" (.v4 1 7946) with
      peers := ((∅ : OrdMap NodeId Peer).insert ['b'] ⟨.v4 2 7946, 1, .alive, none⟩).insert ['c'] ⟨.v4 0 7946, 4, .alive, none⟩ } }

/-- The same while the first peer is probed. -/
def probing : Runtime :=
  { twoPeers with
    roundRobin := twoPeers.roundRobin + 1, seq := twoPeers.seq + 1
    probe := some ⟨twoPeers.seq + 1, ['b'], .v4 2 7946, .direct, 10 + twoPeers.config.probeTimeout⟩ }

/-- The answer of the first peer. -/
def firstAnswer : Event :=
  .handle .byKey (fun _ => 12) 12 (some ⟨protocolVersion, ['b'], .v4 2 7946, twoPeers.seq + 1, .ack, [], GCounter.new⟩)

def twoProbes : List Event := [.startProbe .byKey 10, firstAnswer, .startProbe .byKey 20]

theorem twoPeers_step : twoPeers.step (.startProbe .byKey 10) = probing := by
  have hsort : twoPeers.shared.candidates .byKey = [(['b'], .v4 2 7946), (['c'], .v4 0 7946)] :=
    mergeSort_of_pairwise (by decide)
  exact step_startProbe rfl (by rw [hsort]; rfl)

theorem twoPeers_targets : twoPeers.targets twoProbes = [['b'], ['c']] := by
  have hsort : (probing.step firstAnswer).shared.candidates .byKey = [(['b'], .v4 2 7946), (['c'], .v4 0 7946)] :=
    mergeSort_of_pairwise (by decide)
  have hlast : (probing.step firstAnswer).step (.startProbe .byKey 20) = _ :=
    @step_startProbe _ _ _ ['c'] (.v4 0 7946) (by decide) (by rw [hsort]; decide +kernel)
  rw [twoProbes, targets, started, twoPeers_step, targets, targets, started, hlast]
  decide

theorem twoPeers_live {pre : List Event} (h : pre <+: twoProbes) :
    ((run step twoPeers pre).shared.livePeers .byKey).map Prod.fst = [['b'], ['c']] := by
  rcases prefix_cons_iff.mp h with rfl | ⟨pre, rfl, h₁⟩
  · rfl
  rw [run_cons, twoPeers_step]
  rcases prefix_cons_iff.mp h₁ with rfl | ⟨pre, rfl, h₂⟩
  · rfl
  rcases prefix_cons_iff.mp h₂ with rfl | ⟨pre, rfl, h₃⟩
  · decide
  rw [prefix_nil.mp h₃]
  show (((probing.step firstAnswer).startProbe .byKey 20).1.shared.livePeers .byKey).map Prod.fst = _
  rw [startProbe_shared]
  decide

theorem probes_in_turn_two : (((twoPeers.targets twoProbes).drop 0).take 2).Nodup ∧
    (((twoPeers.targets twoProbes).drop 0).take 2).toFinset = {['b'], ['c']} := by
  refine (probes_in_turn twoPeers twoProbes {['b'], ['c']} (fun pre hpre node => ?_) ?_).1 0 ?_
  · rw [← mem_livePeers, twoPeers_live hpre]
    simp
  · rw [twoPeers_targets]
    decide
  · rw [twoPeers_targets]
    decide

end Pulsate.Cluster
