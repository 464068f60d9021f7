import Pulsate.Cluster.Lemmas.Moves

/-!
# How a peer's record may change

A record is never dropped, its incarnation never falls, and at one incarnation a dead peer stays dead.
-/

namespace Pulsate.Cluster

open Pulsate.Lib OrdMap

variable {p q : Peer} {s s' : Shared}

/-- `q` may follow `p` as the record of one peer. -/
def Peer.Advances (p q : Peer) : Prop :=
  p.incarnation < q.incarnation ∨
    (p.incarnation = q.incarnation ∧ (p.state = .dead → q.state = .dead))

theorem Peer.Advances.refl (p : Peer) : p.Advances p := .inr ⟨rfl, id⟩

theorem Peer.Advances.trans {r : Peer} (h₁ : p.Advances q) (h₂ : q.Advances r) : p.Advances r := by
  rcases h₁ with h₁ | ⟨h₁, d₁⟩
  · rcases h₂ with h₂ | ⟨h₂, _⟩
    · exact .inl (h₁.trans h₂)
    · exact .inl (h₂ ▸ h₁)
  · rcases h₂ with h₂ | ⟨h₂, d₂⟩
    · exact .inl (h₁ ▸ h₂)
    · exact .inr ⟨h₁.trans h₂, fun hd => d₂ (d₁ hd)⟩

theorem Peer.Advances.le (h : p.Advances q) : p.incarnation ≤ q.incarnation := by
  rcases h with h | ⟨h, _⟩ <;> omega

/-- Every record of `s` is still there in `s'`, possibly advanced. -/
def Keeps (s s' : Shared) : Prop :=
  ∀ n p, s.peers.get? n = some p → ∃ q, s'.peers.get? n = some q ∧ p.Advances q

theorem Keeps.refl (s : Shared) : Keeps s s := fun _ p hp => ⟨p, hp, .refl p⟩

theorem Keeps.trans {a b c : Shared} (h₁ : Keeps a b) (h₂ : Keeps b c) : Keeps a c := by
  intro n p hp
  obtain ⟨q, hq, hpq⟩ := h₁ n p hp
  obtain ⟨r, hr, hqr⟩ := h₂ n q hq
  exact ⟨r, hr, hpq.trans hqr⟩

theorem Keeps.insert {n : NodeId} (hs : s'.peers = s.peers.insert n q) (hq : ∀ p, s.peers.get? n = some p → p.Advances q) :
    Keeps s s' := by
  intro m p hp
  rw [hs]
  by_cases hm : m = n
  · subst hm
    exact ⟨q, get?_insert_self _ _ _, hq p hp⟩
  · exact ⟨p, by rw [get?_insert_ne _ _ hm]; exact hp, .refl p⟩

theorem Keeps.of_peers_eq (h : s'.peers = s.peers) : Keeps s s' :=
  fun _ p hp => ⟨p, by rw [h]; exact hp, .refl p⟩

theorem markSuspect_keeps (s : Shared) (timeout : Nat) (n : NodeId) (now : Instant) :
    Keeps s (s.markSuspect timeout n now) := by
  unfold Shared.markSuspect
  split
  · rename_i peer hp
    split
    · rename_i ha
      refine Keeps.insert rfl fun p hp' => .inr ?_
      obtain rfl : peer = p := by simpa [hp] using hp'
      exact ⟨rfl, fun hd => by simp [ha] at hd⟩
    · exact .refl s
  · exact .refl s

theorem markAlive_keeps (s : Shared) (n : NodeId) : Keeps s (s.markAlive n) := by
  unfold Shared.markAlive
  split
  · rename_i peer hp
    split
    · rename_i ha
      refine Keeps.insert rfl fun p hp' => .inr ?_
      obtain rfl : peer = p := by simpa [hp] using hp'
      exact ⟨rfl, fun hd => absurd hd ha⟩
    · exact .refl s
  · exact .refl s

theorem reapSuspects_keeps (s : Shared) (now : Instant) : Keeps s (s.reapSuspects now).1 := by
  intro n p hp
  simp only [Shared.reapSuspects, get?_mapVal, hp, Option.map_some, Option.some.injEq,
    exists_eq_left']
  split
  · exact .inr ⟨rfl, fun _ => rfl⟩
  · exact .refl p

/-- An update that supersedes a record advances it: the dead state has the highest rank. -/
theorem advances_of_supersedes (h : q.incarnation > p.incarnation ∨
      (q.incarnation = p.incarnation ∧ q.state.rank > p.state.rank)) : p.Advances q := by
  rcases h with h | ⟨h, hr⟩
  · exact .inl h
  · refine .inr ⟨h.symm, fun hd => ?_⟩
    rw [hd] at hr
    cases hq : q.state <;> simp [hq, MemberState.rank] at hr

theorem applyUpdate_keeps (s : Shared) (timeout : Nat) (now : Instant) (u : MemberUpdate) :
    Keeps s (s.applyUpdate timeout now u).1 := by
  unfold Shared.applyUpdate
  split
  · split
    · exact Keeps.of_peers_eq rfl
    · exact .refl s
  · split
    · rename_i hnone
      have hnew : ∀ (q p : Peer), s.peers.get? u.node = some p → p.Advances q := by
        intro q p hp
        simp [hnone] at hp
      dsimp only
      split
      · exact Keeps.insert rfl (hnew _)
      · exact Keeps.insert rfl (hnew _)
    · rename_i peer hp
      split
      · rename_i hsup
        have hadv : ∀ (q p : Peer), q.incarnation = u.incarnation → q.state = u.state →
            s.peers.get? u.node = some p → p.Advances q := by
          intro q p hi hst hp'
          obtain rfl : peer = p := by simpa [hp] using hp'
          exact advances_of_supersedes (by rw [hi, hst]; exact hsup)
        cases hs : u.state with
        | alive => exact Keeps.insert rfl fun p => hadv _ p rfl hs.symm
        | suspect => exact Keeps.insert rfl fun p => hadv _ p rfl hs.symm
        | dead => exact Keeps.insert rfl fun p => hadv _ p rfl hs.symm
      · exact .refl s

theorem Move.keeps (h : Move s s') : Keeps s s' := by
  cases h with
  | update timeout now u => exact applyUpdate_keeps s timeout now u
  | counter c => exact Keeps.of_peers_eq rfl
  | reap now => exact reapSuspects_keeps s now
  | suspect timeout node now => exact markSuspect_keeps s timeout node now
  | alive node => exact markAlive_keeps s node

theorem Moves.keeps (h : Moves s s') : Keeps s s' := by
  induction h with
  | refl => exact .refl s
  | tail _ hm ih => exact ih.trans hm.keeps

theorem run_keeps (r : Runtime) (es : List Event) :
    Keeps r.shared (run Runtime.step r es).shared :=
  run_relates (R := fun a b : Runtime => Keeps a.shared b.shared) (fun r => .refl r.shared)
    Keeps.trans (fun r e => (step_moves r e).keeps) r es

end Pulsate.Cluster
