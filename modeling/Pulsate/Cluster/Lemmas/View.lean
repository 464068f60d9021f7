import Pulsate.Cluster.Lemmas.Moves

/-!
# The view a node keeps of the cluster

The membership set and the peer map are two structures that four functions keep in step. `ViewInv` says
how they agree; every move keeps it.
-/

namespace Pulsate.Cluster

open Pulsate.Lib List OrdMap Pulsate.Cluster.Membership

variable {m : Membership} {n x : NodeId}

/-- The view of node `me`: the members are `me` and the peers that are not dead, `me` is no peer, and a
deadline runs exactly for the suspects. -/
structure ViewInv (me : NodeId) (s : Shared) : Prop where
  me_eq : s.me = me
  owner : s.membership.me = me
  members : ∀ n, n ∈ s.membership.nodes ↔
    n = me ∨ ∃ p, s.peers.get? n = some p ∧ p.state ≠ .dead
  me_not_peer : s.peers.get? me = none
  deadline : ∀ n p, s.peers.get? n = some p → (p.suspectDeadline.isSome ↔ p.state = .suspect)

variable {me : NodeId} {s : Shared}

theorem ViewInv.init (me : NodeId) (addr : SocketAddr) : ViewInv me (Shared.new me addr) where
  me_eq := rfl
  owner := rfl
  members := fun n => by simp [Shared.new, new]
  me_not_peer := rfl
  deadline := fun n p h => by simp [Shared.new] at h

theorem ViewInv.tracked (h : ViewInv me s) : s.Tracked where
  owner := h.owner.trans h.me_eq.symm
  known := by
    intro n hn hne
    rcases (h.members n).mp hn with rfl | ⟨p, hp, -⟩
    · exact absurd h.me_eq.symm hne
    · rw [hp]
      rfl

/-! ## Membership -/

@[simp] theorem Membership.mem_join : x ∈ (m.join n).nodes ↔ x = n ∨ x ∈ m.nodes := by
  simp [join]

@[simp] theorem Membership.leave_me (m : Membership) (n : NodeId) : (m.leave n).me = m.me := by
  unfold leave; split <;> rfl

theorem Membership.mem_leave (hn : n ≠ m.me) : x ∈ (m.leave n).nodes ↔ x ≠ n ∧ x ∈ m.nodes := by
  simp [leave, hn]

theorem Membership.leaveAll_me (m : Membership) (dead : List NodeId) :
    (dead.foldl leave m).me = m.me := by
  induction dead generalizing m with
  | nil => rfl
  | cons n dead ih => rw [foldl_cons, ih, leave_me]

theorem Membership.mem_leaveAll {dead : List NodeId} (hd : m.me ∉ dead) :
    x ∈ (dead.foldl leave m).nodes ↔ x ∉ dead ∧ x ∈ m.nodes := by
  induction dead generalizing m with
  | nil => simp
  | cons n dead ih =>
    simp only [mem_cons, not_or] at hd ⊢
    rw [foldl_cons, ih (by simpa using hd.2), mem_leave (Ne.symm hd.1)]
    tauto

/-! ## Recording a peer -/

/-- Writing the record of one peer `n`, with a membership that differs at most in `n`. -/
theorem ViewInv.record {p : Peer} (h : ViewInv me s) (hn : n ≠ me) (hd : p.suspectDeadline.isSome ↔ p.state = .suspect)
    (hm : m.me = me) (hin : n ∈ m.nodes ↔ p.state ≠ .dead) (hout : ∀ x, x ≠ n → (x ∈ m.nodes ↔ x ∈ s.membership.nodes)) :
    ViewInv me { s with peers := s.peers.insert n p, membership := m } where
  me_eq := h.me_eq
  owner := hm
  members := by
    intro x
    by_cases hx : x = n
    · subst hx
      simp [hin, hn]
    · simp only [get?_insert_ne _ _ hx, hout x hx, h.members]
  me_not_peer := by
    simpa [get?_insert_ne _ _ (Ne.symm hn)] using h.me_not_peer
  deadline := by
    intro x q hq
    simp only [get?_insert] at hq
    split_ifs at hq with hx
    · cases hq; exact hd
    · exact h.deadline x q hq

theorem ViewInv.peer_ne {p : Peer} (h : ViewInv me s) (hp : s.peers.get? n = some p) : n ≠ me := by
  rintro rfl
  simp [h.me_not_peer] at hp

theorem ViewInv.recordLive {p : Peer} (h : ViewInv me s) (hn : n ≠ me) (hd : p.suspectDeadline.isSome ↔ p.state = .suspect)
    (hp : p.state ≠ .dead) : ViewInv me { s with peers := s.peers.insert n p, membership := s.membership.join n } :=
  h.record hn hd h.owner (by simp [hp]) (fun x hx => by simp [hx])

/-! ## The moves -/

theorem ViewInv.markSuspect (h : ViewInv me s) (timeout : Nat) (n : NodeId) (now : Instant) :
    ViewInv me (s.markSuspect timeout n now) := by
  unfold Shared.markSuspect
  split
  · rename_i peer hp
    split
    · rename_i ha
      have hmem : n ∈ s.membership.nodes := (h.members n).mpr (.inr ⟨peer, hp, by simp [ha]⟩)
      exact h.record (h.peer_ne hp) (by simp) h.owner (by simp [hmem]) (fun _ _ => Iff.rfl)
    · exact h
  · exact h

theorem ViewInv.markAlive (h : ViewInv me s) (n : NodeId) : ViewInv me (s.markAlive n) := by
  unfold Shared.markAlive
  split
  · rename_i peer hp
    split
    · exact h.recordLive (h.peer_ne hp) (by simp) (by simp)
    · exact h
  · exact h

theorem ViewInv.applyUpdate (h : ViewInv me s) (timeout : Nat) (now : Instant) (u : MemberUpdate) :
    ViewInv me (s.applyUpdate timeout now u).1 := by
  unfold Shared.applyUpdate
  split
  · split
    · exact ⟨h.me_eq, h.owner, h.members, h.me_not_peer, h.deadline⟩
    · exact h
  · rename_i hne
    have hn : u.node ≠ me := h.me_eq ▸ hne
    split
    · rename_i hnone
      -- an unknown peer: recorded as told, a member unless dead
      cases hs : u.state with
      | alive => exact h.recordLive hn (by simp) (by simp)
      | suspect => exact h.recordLive hn (by simp) (by simp)
      | dead =>
        have hout : u.node ∉ s.membership.nodes := by
          rw [h.members]; rintro (h' | ⟨p, hp, _⟩)
          · exact hn h'
          · simp [hnone] at hp
        exact h.record hn (by simp) h.owner (by simp [hout]) (fun _ _ => Iff.rfl)
    · rename_i peer hp
      split
      · cases hs : u.state with
        | alive => exact h.recordLive hn (by simp) (by simp)
        | suspect => exact h.recordLive hn (by simp) (by simp)
        | dead =>
          have hown : u.node ≠ s.membership.me := by rw [h.owner]; exact hn
          exact h.record hn (by simp) (by simpa using h.owner)
            (by simp [mem_leave hown])
            (fun x hx => by simp [mem_leave hown, hx])
      · exact h

theorem Shared.mem_reaped {now : Instant} :
    x ∈ (s.peers.entries.filter (fun e => Shared.expired now e.2)).map Prod.fst ↔
      ∃ p, s.peers.get? x = some p ∧ Shared.expired now p := by
  simp only [mem_map, mem_filter, Prod.exists, exists_and_right, exists_eq_right,
    mem_entries_iff]

theorem ViewInv.reap (h : ViewInv me s) (now : Instant) : ViewInv me (s.reapSuspects now).1 := by
  have hme : s.membership.me ∉
      (s.peers.entries.filter (fun e => Shared.expired now e.2)).map Prod.fst := by
    rw [Shared.mem_reaped, h.owner]; simp [h.me_not_peer]
  refine ⟨h.me_eq, ?_, ?_, ?_, ?_⟩
  · simp only [Shared.reapSuspects, leaveAll_me, h.owner]
  · intro x
    simp only [Shared.reapSuspects, mem_leaveAll hme, Shared.mem_reaped, h.members,
      get?_mapVal]
    by_cases hx : x = me
    · subst hx; simp [h.me_not_peer]
    · cases hp : s.peers.get? x with
      | none => simp [hx]
      | some p =>
        cases he : Shared.expired now p <;> simp [hx, he]
  · simp [Shared.reapSuspects, h.me_not_peer]
  · intro x q hq
    simp only [Shared.reapSuspects, get?_mapVal, Option.map_eq_some_iff] at hq
    obtain ⟨p, hp, rfl⟩ := hq
    split
    · simp
    · exact h.deadline x p hp

theorem ViewInv.move {s s' : Shared} (hm : Move s s') (h : ViewInv me s) : ViewInv me s' := by
  cases hm with
  | update timeout now u => exact h.applyUpdate timeout now u
  | counter c => exact ⟨h.me_eq, h.owner, h.members, h.me_not_peer, h.deadline⟩
  | reap now => exact h.reap now
  | suspect timeout node now => exact h.markSuspect timeout node now
  | alive node => exact h.markAlive node

theorem ViewInv.moves {s s' : Shared} (hm : Moves s s') (h : ViewInv me s) : ViewInv me s' := by
  induction hm with
  | refl => exact h
  | tail _ hm ih => exact ih.move hm

theorem ViewInv.run (config : Config) (me : NodeId) (addr : SocketAddr) (seed : UInt64)
    (es : List Event) :
    ViewInv me (run Runtime.step (Runtime.new config me addr seed) es).shared :=
  run_invariant (I := fun r : Runtime => ViewInv me r.shared)
    (fun r e h => h.moves (step_moves r e)) (ViewInv.init me addr) es

/-! ## Snapshots -/

theorem Shared.snapshot_nodes (s : Shared) (o : HashOrder) (seq : UInt64) (kind : Kind) :
    ((s.snapshot o seq kind).updates.map MemberUpdate.node).Perm (s.me :: s.peers.keys) := by
  simp only [Shared.snapshot, map_cons, map_map]
  exact ((o.perm s.peers.entries).map _).cons _

theorem ViewInv.snapshot (h : ViewInv me s) (o : HashOrder) (seq : UInt64) (kind : Kind) :
    ((s.snapshot o seq kind).updates.map MemberUpdate.node).Nodup ∧
      ∀ u ∈ (s.snapshot o seq kind).updates, u.node = me →
        u.state = .alive ∧ u.incarnation = s.incarnation := by
  have hme : me ∉ s.peers.keys := by
    rw [mem_keys_iff]; simp [h.me_not_peer]
  constructor
  · rw [(s.snapshot_nodes o seq kind).nodup_iff, nodup_cons, h.me_eq]
    exact ⟨hme, s.peers.nodup_keys⟩
  · intro u hu hn
    rcases mem_cons.mp hu with rfl | hu
    · exact ⟨rfl, rfl⟩
    · obtain ⟨e, he, rfl⟩ := mem_map.mp hu
      have hk : e.1 ∈ s.peers.keys :=
        mem_map.mpr ⟨e, (o.perm s.peers.entries).mem_iff.mp he, rfl⟩
      exact absurd (hn ▸ hk) hme

end Pulsate.Cluster
