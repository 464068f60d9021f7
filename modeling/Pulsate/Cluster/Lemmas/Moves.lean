import Mathlib.Logic.Relation
import Pulsate.Cluster.Gossip

/-!
# What a step can do to the shared state

Every event changes the shared state through a few elementary moves. The lemmas here say so once, for
the state a step leaves and for the states its frames are taken from; the invariants are then shown
move by move.
-/

namespace Pulsate.Cluster

open Pulsate.Lib Relation List

variable {o : HashOrder} {r : Runtime} {s : Shared}

/-- An elementary change of the shared state. -/
inductive Move : Shared → Shared → Prop
  | update (s : Shared) (timeout : Nat) (now : Instant) (u : MemberUpdate) :
      Move s (s.applyUpdate timeout now u).1
  | counter (s : Shared) (c : GCounter) : Move s { s with counter := c }
  | reap (s : Shared) (now : Instant) : Move s (s.reapSuspects now).1
  | suspect (s : Shared) (timeout : Nat) (node : NodeId) (now : Instant) :
      Move s (s.markSuspect timeout node now)
  | alive (s : Shared) (node : NodeId) : Move s (s.markAlive node)

abbrev Moves := ReflTransGen Move

theorem applyUpdates_moves {timeout : Nat} {clock : Nat → Instant} (s : Shared)
    (us : List MemberUpdate) : Moves s (Shared.applyUpdates timeout clock s us).1 := by
  induction us generalizing s with
  | nil => exact .refl
  | cons u us ih => exact .head (.update s timeout (clock us.length) u) (ih _)

theorem reconcile_moves (s : Shared) (timeout : Nat) (clock : Nat → Instant) (f : Frame) :
    Moves s (s.reconcile timeout clock f).1 :=
  .tail (applyUpdates_moves s f.updates) (.counter _ _)

/-! ## Steps that leave the shared state alone -/

@[simp] theorem nextSeq_shared (r : Runtime) : r.nextSeq.shared = r.shared := rfl

theorem pingAll_shared (o : HashOrder) (r : Runtime) (dests : List SocketAddr) :
    (Runtime.pingAll o r dests).1.shared = r.shared := by
  induction dests generalizing r with
  | nil => rfl
  | cons addr dests ih => exact ih r.nextSeq

theorem pingAll_sent {dests : List SocketAddr} {x : SocketAddr × Frame} (h : x ∈ (Runtime.pingAll o r dests).2) :
    ∃ seq kind, x.2 = r.shared.snapshot o seq kind := by
  induction dests generalizing r with
  | nil => simp [Runtime.pingAll] at h
  | cons addr dests ih =>
    rcases mem_append.mp h with h | h
    · simp only [Runtime.send, mem_singleton] at h
      exact ⟨_, _, by rw [h, nextSeq_shared]⟩
    · exact ih (r := r.nextSeq) h

theorem gossipRound_shared (r : Runtime) (o : HashOrder) : (r.gossipRound o).1.shared = r.shared :=
  pingAll_shared o _ _

theorem gossipRound_sent {x : SocketAddr × Frame} (h : x ∈ (r.gossipRound o).2) : ∃ seq kind, x.2 = r.shared.snapshot o seq kind :=
  pingAll_sent (r := { r with rng := (r.gossipDests o).1 }) h

@[simp] theorem pickIndirect_shared (r : Runtime) (o : HashOrder) (a : SocketAddr) :
    (r.pickIndirect o a).1.shared = r.shared := rfl

@[simp] theorem markAlive_incarnation (s : Shared) (n : NodeId) :
    (s.markAlive n).incarnation = s.incarnation := by
  unfold Shared.markAlive
  split
  · split <;> rfl
  · rfl

/-! ## What an event does -/

/-- The state after an event, and the states its frames are snapshots of: every one is reached by moves
and has the incarnation the step ends with. -/
structure Reaches (s : Shared) (out : Runtime × Sent) : Prop where
  state : Moves s out.1.shared
  sent : ∀ x ∈ out.2, ∃ s' o seq kind, Moves s s' ∧ s'.incarnation = out.1.shared.incarnation ∧
    x.2 = s'.snapshot o seq kind

theorem Reaches.quiet (h : Moves s r.shared) : Reaches s (r, []) :=
  ⟨h, by simp⟩

theorem Reaches.gossip (h : Moves s r.shared) :
    Reaches s (r.gossipRound o) where
  state := by rw [gossipRound_shared]; exact h
  sent := fun x hx => by
    obtain ⟨seq, kind, he⟩ := gossipRound_sent hx
    exact ⟨r.shared, o, seq, kind, h, by rw [gossipRound_shared], he⟩

theorem Reaches.send {r' : Runtime} {addr : SocketAddr} {seq : UInt64} {kind : Kind} (h : Moves s r.shared)
    (hr : r.shared = r'.shared) :
    Reaches s (r, r'.send o addr seq kind) where
  state := h
  sent := fun x hx => by
    simp only [Runtime.send, mem_singleton] at hx
    exact ⟨r.shared, o, seq, kind, h, rfl, by rw [hx, hr]⟩

theorem Reaches.append {r₁ : Runtime} {sent₁ sent₂ : Sent} (h₁ : Reaches s (r₁, sent₁)) (h₂ : Reaches s (r, sent₂))
    (hi : r₁.shared.incarnation = r.shared.incarnation) : Reaches s (r, sent₁ ++ sent₂) where
  state := h₂.state
  sent := fun x hx => by
    rcases mem_append.mp hx with hx | hx
    · obtain ⟨s', o, seq, kind, hm, he, hx⟩ := h₁.sent x hx
      exact ⟨s', o, seq, kind, hm, he.trans hi, hx⟩
    · exact h₂.sent x hx

theorem completeProbe_moves (seq : UInt64) (h : Moves s r.shared) :
    Moves s (r.completeProbe seq).shared ∧
      (r.completeProbe seq).shared.incarnation = r.shared.incarnation := by
  unfold Runtime.completeProbe
  split
  · split
    · exact ⟨.tail h (.alive _ _), by simp [Runtime.markAlive]⟩
    · exact ⟨h, rfl⟩
  · exact ⟨h, rfl⟩

theorem forwardAck_reaches (o : HashOrder) (f : Frame) (h : Moves s r.shared) :
    Reaches s (r.forwardAck o f) ∧ (r.forwardAck o f).1.shared = r.shared := by
  unfold Runtime.forwardAck
  split
  · dsimp only
    split
    · exact ⟨Reaches.send h rfl, rfl⟩
    · exact ⟨Reaches.quiet h, rfl⟩
  · exact ⟨Reaches.quiet h, rfl⟩

theorem handleAck_reaches (o : HashOrder) (f : Frame) (h : Moves s r.shared) :
    Reaches s (r.handleAck o f) ∧ (r.handleAck o f).1.shared.incarnation = r.shared.incarnation := by
  have hc := completeProbe_moves f.seq h
  have hf := forwardAck_reaches o f hc.1
  exact ⟨hf.1, by rw [Runtime.handleAck, hf.2, hc.2]⟩

theorem handle_reaches (r : Runtime) (o : HashOrder) (clock : Nat → Instant) (now : Instant)
    (d : Option Frame) : Reaches r.shared (r.handle o clock now d) := by
  unfold Runtime.handle
  cases d with
  | none => exact Reaches.quiet .refl
  | some f =>
    dsimp only
    split
    · exact Reaches.quiet .refl
    · have hm := reconcile_moves r.shared r.config.suspicionTimeout clock f
      generalize r.shared.reconcile r.config.suspicionTimeout clock f = res at hm ⊢
      obtain ⟨shared, refuted⟩ := res
      dsimp only at hm ⊢
      generalize hq : (if refuted then Runtime.gossipRound { r with shared } o
        else ({ r with shared }, [])) = q
      have hg : Reaches r.shared q ∧ Moves r.shared q.1.shared := by
        subst hq
        split
        · exact ⟨Reaches.gossip hm, by rw [gossipRound_shared]; exact hm⟩
        · exact ⟨Reaches.quiet hm, hm⟩
      cases f.kind with
      | ping => exact Reaches.append hg.1 (Reaches.send hg.2 rfl) rfl
      | pingReq target => exact Reaches.append hg.1 (Reaches.send hg.2 rfl) rfl
      | ack =>
        have ha := handleAck_reaches o f hg.2
        exact Reaches.append hg.1 ha.1 ha.2.symm

theorem advanceProbe_reaches (r : Runtime) (o : HashOrder) (now : Instant) :
    Reaches r.shared (r.advanceProbe o now) := by
  unfold Runtime.advanceProbe
  split
  · exact Reaches.quiet .refl
  · rename_i probe _
    split
    · exact Reaches.quiet .refl
    · split
      · refine ⟨.refl, fun x hx => ?_⟩
        obtain ⟨addr, _, hx⟩ := mem_flatMap.mp hx
        simp only [Runtime.send, pickIndirect_shared, mem_singleton] at hx
        exact ⟨r.shared, o, _, _, .refl, rfl, by rw [hx]⟩
      · exact Reaches.gossip (.single (.suspect _ _ _ _))

theorem startProbe_reaches (r : Runtime) (o : HashOrder) (now : Instant) :
    Reaches r.shared (r.startProbe o now) := by
  unfold Runtime.startProbe
  split
  · exact Reaches.quiet .refl
  · dsimp only
    split
    · exact Reaches.quiet .refl
    · exact Reaches.send .refl rfl

theorem react_reaches (r : Runtime) (e : Event) : Reaches r.shared (r.react e) := by
  cases e with
  | handle o clock now d => exact handle_reaches r o clock now d
  | reapSuspects o now =>
    have hm : Moves r.shared (r.shared.reapSuspects now).1 := .single (.reap _ _)
    simp only [Runtime.react, Runtime.reapSuspects]
    split
    · exact Reaches.gossip hm
    · exact Reaches.quiet hm
  | advanceProbe o now => exact advanceProbe_reaches r o now
  | startProbe o now => exact startProbe_reaches r o now
  | gossipRound o => exact Reaches.gossip .refl
  | markSuspect node now => exact Reaches.quiet (.single (.suspect _ _ _ _))
  | markAlive node => exact Reaches.quiet (.single (.alive _ _))
  | expireRelays now => exact Reaches.quiet .refl
  | incr n => exact Reaches.quiet (.single (.counter _ _))

theorem step_moves (r : Runtime) (e : Event) : Moves r.shared (r.step e).shared :=
  (react_reaches r e).state

end Pulsate.Cluster
