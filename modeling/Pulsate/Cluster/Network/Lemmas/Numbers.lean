import Pulsate.Cluster.Network.Lemmas.Frames

/-!
# Sequence numbers along a run

A node takes its numbers in order, so that as long as its counter does not wrap around it takes none twice.
-/

namespace Pulsate.Cluster

open Pulsate.Lib List Pulsate.Cluster.Runtime

/-! ## One node -/

theorem length_numbersAfter (seq : UInt64) (n : Nat) : (numbersAfter seq n).length = n := by
  induction n generalizing seq with
  | zero => rfl
  | succ n ih => exact congrArg (· + 1) (ih (seq + 1))

theorem toNat_succ {seq : UInt64} {n : Nat} (h : seq.toNat + (n + 1) < 2 ^ 64) : (seq + 1).toNat = seq.toNat + 1 := by
  rw [UInt64.toNat_add]
  exact Nat.mod_eq_of_lt (by simp only [UInt64.reduceToNat]; omega)

theorem mem_numbersAfter {seq s : UInt64} {n : Nat} (h : s ∈ numbersAfter seq n) (hwrap : seq.toNat + n < 2 ^ 64) :
    seq.toNat < s.toNat ∧ s.toNat ≤ seq.toNat + n := by
  induction n generalizing seq with
  | zero => cases h
  | succ n ih =>
    have hsucc := toNat_succ hwrap
    rcases mem_cons.mp h with rfl | h
    · omega
    · have := ih h (by omega)
      omega

theorem pingAll_seq (o : HashOrder) (r : Runtime) (dests : List SocketAddr) :
    (pingAll o r dests).1.seq = r.seq + UInt64.ofNat dests.length := by
  induction dests generalizing r with
  | nil => exact (UInt64.add_zero _).symm
  | cons addr dests ih =>
    refine (ih r.nextSeq).trans ?_
    show r.seq + 1 + UInt64.ofNat dests.length = r.seq + UInt64.ofNat (dests.length + 1)
    rw [UInt64.ofNat_add, UInt64.add_assoc, UInt64.add_comm 1]
    rfl

theorem gossipRound_seq (r : Runtime) (o : HashOrder) :
    (r.gossipRound o).1.seq = r.seq + UInt64.ofNat (r.gossipDests o).2.length := pingAll_seq o _ _

theorem answer_seq (r : Runtime) (o : HashOrder) (now : Instant) (f : Frame) : (r.answer o now f).1.seq = r.seq := by
  rw [answer]
  split
  · rfl
  · rfl
  · obtain ⟨relays, h⟩ := forwardAck_keeps (r.completeProbe f.seq) o f
    rw [handleAck, h]
    show (r.completeProbe f.seq).seq = r.seq
    unfold completeProbe
    split
    · split <;> rfl
    · rfl

theorem step_seq (r : Runtime) (e : Event) : (r.step e).seq = r.seq + UInt64.ofNat (r.draws e) := by
  have hzero : r.seq = r.seq + UInt64.ofNat 0 := (UInt64.add_zero _).symm
  cases e with
  | handle o clock now d =>
    cases d with
    | none => exact hzero
    | some f =>
      show (r.handle o clock now (some f)).1.seq = _
      by_cases hv : f.version = protocolVersion
      · rw [handle_eq hv]
        show ((r.heard o clock f).1.answer o now f).1.seq = _
        rw [answer_seq, heard, draws, if_neg (not_not.mpr hv)]
        dsimp only
        split
        · exact gossipRound_seq _ o
        · exact hzero
      · rw [handle_version hv, draws, if_pos hv]
        exact hzero
  | reapSuspects o now =>
    simp only [step, react, reapSuspects, draws]
    split
    · exact gossipRound_seq _ o
    · exact hzero
  | advanceProbe o now =>
    show (r.advanceProbe o now).1.seq = _
    rw [advanceProbe, draws]
    cases r.probe with
    | none => exact hzero
    | some p =>
      dsimp only
      split
      · exact hzero
      · cases p.phase with
        | direct => exact hzero
        | indirect => exact gossipRound_seq _ o
  | startProbe o now =>
    rcases startProbe_cases r o now with ⟨hnone, hlen⟩ | ⟨node, peer, -, -, hdrawn, -, hseq, -⟩
    · rw [hlen, step, react, hnone]
      exact hzero
    · have hlen : r.draws (.startProbe o now) = 1 := by
        rw [← length_numbersAfter r.seq (r.draws (.startProbe o now))]
        exact congrArg List.length hdrawn
      rw [hseq, hlen]
      rfl
  | gossipRound o => exact gossipRound_seq r o
  | markSuspect node now => exact hzero
  | markAlive node => exact hzero
  | expireRelays now => exact hzero
  | incr n => exact hzero

/-! ## All nodes -/

namespace Network

variable {ι : Type} [DecidableEq ι] {net : Network ι} {as bs : List (Action ι)} {a : Action ι} {i : ι} {s : UInt64}

@[simp] theorem step_event_self (net : Network ι) (i : ι) (e : Event) :
    (net.step (.event i e)).nodes i = (net.nodes i).step e := Function.update_self _ _ _

theorem step_event_ne {j : ι} (net : Network ι) (e : Event) (h : j ≠ i) :
    (net.step (.event i e)).nodes j = net.nodes j := Function.update_of_ne h _ _

theorem drawnIn_append (net : Network ι) (as bs : List (Action ι)) :
    net.drawnIn (as ++ bs) = net.drawnIn as ++ (run Network.step net as).drawnIn bs := by
  induction as generalizing net with
  | nil => rfl
  | cons a as ih =>
    rw [cons_append, drawnIn, drawnIn, ih, append_assoc]
    rfl

theorem drawnIn_concat (net : Network ι) (as : List (Action ι)) (a : Action ι) :
    net.drawnIn (as ++ [a]) = net.drawnIn as ++ (run Network.step net as).drawnBy a := by
  rw [drawnIn_append, drawnIn, drawnIn, append_nil]

theorem FreshNumbers.left (h : net.FreshNumbers (as ++ bs)) : net.FreshNumbers as := by
  refine ⟨fun i j s hi hj => h.across i j s ?_ ?_, fun i => lt_of_le_of_lt ?_ (h.noWrap i)⟩
  · rw [drawnIn_append]
    exact mem_append_left _ hi
  · rw [drawnIn_append]
    exact mem_append_left _ hj
  · rw [drawnIn_append, filter_append, length_append]
    omega

/-- A node's counter stands at the number of numbers it has taken, and none of them is above it. -/
structure InOrder (net : Network ι) (as : List (Action ι)) (net' : Network ι) : Prop where
  count : ∀ i, (net'.nodes i).seq.toNat =
    (net.nodes i).seq.toNat + ((net.drawnIn as).filter (fun d => d.1 = i)).length
  past : ∀ i s, (i, s) ∈ net.drawnIn as → s.toNat ≤ (net'.nodes i).seq.toNat

theorem filter_drawnBy_event (net : Network ι) (e : Event) (j : ι) :
    ((net.drawnBy (.event i e)).filter (fun d => d.1 = j)).length = if i = j then (net.nodes i).draws e else 0 := by
  rw [drawnBy, filter_map, length_map]
  split
  · rename_i h
    subst h
    rw [filter_eq_self.mpr (fun s _ => by simp), drawn, length_numbersAfter]
  · rename_i h
    rw [filter_eq_nil_iff.mpr (fun s _ => by simpa using h)]
    rfl

theorem seq_event {e : Event} (h : net.FreshNumbers (as ++ [.event i e])) (hin : InOrder net as (run Network.step net as)) :
    ((run Network.step net as).nodes i).seq.toNat + ((run Network.step net as).nodes i).draws e < 2 ^ 64 ∧
      (((run Network.step net as).nodes i).step e).seq.toNat =
        ((run Network.step net as).nodes i).seq.toNat + ((run Network.step net as).nodes i).draws e := by
  have hwrap := h.noWrap i
  rw [drawnIn_concat, filter_append, length_append, filter_drawnBy_event, if_pos rfl, ← add_assoc,
    ← hin.count i] at hwrap
  refine ⟨hwrap, ?_⟩
  rw [step_seq, UInt64.toNat_add, UInt64.toNat_ofNat', Nat.add_mod_mod]
  exact Nat.mod_eq_of_lt hwrap

theorem inOrder (as : List (Action ι)) (h : net.FreshNumbers as) : InOrder net as (run Network.step net as) := by
  induction as using List.reverseRecOn with
  | nil => exact ⟨fun i => rfl, fun i s hs => by cases hs⟩
  | append_singleton as a ih =>
    have hin := ih h.left
    rw [run_concat]
    cases a with
    | resend i o dest frame =>
      refine ⟨fun j => ?_, fun j s hs => ?_⟩
      · rw [drawnIn_concat, drawnBy, append_nil]
        exact hin.count j
      · rw [drawnIn_concat, drawnBy, append_nil] at hs
        exact hin.past j s hs
    | event i e =>
      obtain ⟨hwrap, hseq⟩ := seq_event h hin
      refine ⟨fun j => ?_, fun j s hs => ?_⟩
      · rw [drawnIn_concat, filter_append, length_append, filter_drawnBy_event, ← add_assoc, ← hin.count j]
        by_cases hj : i = j
        · subst hj
          rw [step_event_self, hseq, if_pos rfl]
        · rw [step_event_ne _ _ (Ne.symm hj), if_neg hj, add_zero]
      · rw [drawnIn_concat] at hs
        by_cases hj : j = i
        · subst hj
          rw [step_event_self, hseq]
          rcases mem_append.mp hs with hs | hs
          · exact (hin.past j s hs).trans (Nat.le_add_right _ _)
          · obtain ⟨s', hs', he⟩ := mem_map.mp hs
            obtain ⟨-, rfl⟩ := Prod.mk.inj he
            exact (mem_numbersAfter hs' hwrap).2
        · rw [step_event_ne _ _ hj]
          rcases mem_append.mp hs with hs | hs
          · exact hin.past j s hs
          · obtain ⟨s', -, he⟩ := mem_map.mp hs
            exact absurd (Prod.mk.inj he).1.symm hj

theorem FreshNumbers.fresh (h : net.FreshNumbers (as ++ [a])) (hs : (i, s) ∈ (run Network.step net as).drawnBy a)
    (j : ι) : (j, s) ∉ net.drawnIn as := by
  intro hold
  have hin := inOrder as h.left
  have hij : i = j := by
    refine h.across i j s ?_ ?_
    · rw [drawnIn_concat]
      exact mem_append_right _ hs
    · rw [drawnIn_concat]
      exact mem_append_left _ hold
  subst hij
  cases a with
  | resend i o dest frame => cases hs
  | event k e =>
    obtain ⟨s', hs', he⟩ := mem_map.mp hs
    obtain ⟨rfl, rfl⟩ := Prod.mk.inj he
    have hnew := (mem_numbersAfter hs' (seq_event h hin).1).1
    exact absurd (hin.past k s' hold) (not_le.mpr hnew)

end Network

end Pulsate.Cluster
