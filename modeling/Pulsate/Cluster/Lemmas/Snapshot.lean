import Pulsate.Cluster.Lemmas.Delivery
import Pulsate.Cluster.Lemmas.Suspicion

/-!
# Reconciling with a snapshot

A snapshot tells everything its sender knows, and nothing else. A node that hears from it that it has failed
comes back at an incarnation that the sender takes for later than its own record.
-/

namespace Pulsate.Cluster

open Pulsate.Lib Shared Function

variable {me : NodeId} {s t : Shared}

variable {n : NodeId} {s' : Shared}

/-! ## What a snapshot tells -/

/-- What a node says of another, or of itself. -/
def Shared.claim (t : Shared) (n : NodeId) : Record :=
  if n = t.me then recordOf t.incarnation .alive else t.record n

/-- The incarnation a node needs to outlive what is recorded of it. -/
def Shared.refutation (t : Shared) (n : NodeId) : ℕ :=
  (t.peers.get? n).elim 0 (fun p => if p.state ≠ .alive then p.incarnation + 1 else 0)

theorem mem_snapshot_updates {o : HashOrder} {seq : UInt64} {kind : Kind} {u : MemberUpdate} :
    u ∈ (t.snapshot o seq kind).updates ↔
      u = ⟨t.me, t.localAddr, t.incarnation, .alive⟩ ∨
        ∃ n p, t.peers.get? n = some p ∧ u = ⟨n, p.addr, p.incarnation, p.state⟩ := by
  rw [Shared.snapshot, List.mem_cons, List.mem_map]
  refine or_congr_right ⟨?_, ?_⟩
  · rintro ⟨⟨n, p⟩, he, rfl⟩
    exact ⟨n, p, OrdMap.mem_entries_iff.mp ((o.perm _).mem_iff.mp he), rfl⟩
  · rintro ⟨n, p, hp, rfl⟩
    exact ⟨(n, p), (o.perm _).mem_iff.mpr (OrdMap.mem_entries_iff.mpr hp), rfl⟩

theorem tells_le_iff {u : MemberUpdate} {i : ℕ} {f : NodeId → Record} {g : NodeId → WithBot ℕ} :
    u.tells me ≤ (i, f, g) ↔
      if u.node = me then (u.state ≠ .alive → u.incarnation + 1 ≤ i) else u.record ≤ f u.node := by
  rw [MemberUpdate.tells]
  split
  · split
    · rename_i ha
      exact ⟨fun h _ => h.1, fun h => ⟨h ha, bot_le, bot_le⟩⟩
    · rename_i ha
      exact ⟨fun _ h => absurd h ha, fun _ => ⟨Nat.zero_le i, bot_le, bot_le⟩⟩
  · constructor
    · intro h
      have hu : update (⊥ : NodeId → Record) u.node u.record u.node ≤ f u.node := h.2.1 u.node
      rwa [update_self] at hu
    · intro h
      refine ⟨Nat.zero_le i, fun n => ?_, bot_le⟩
      by_cases hn : n = u.node
      · subst hn
        exact (update_self _ _ _).le.trans h
      · exact (update_of_ne hn _ _).le.trans bot_le

theorem tells_snapshot (hnot : t.peers.get? t.me = none) (hne : t.me ≠ me) (o : HashOrder) (seq : UInt64) (kind : Kind) :
    (t.snapshot o seq kind).tells me = (t.refutation me, update t.claim me ⊥, t.counter.slot) := by
  apply eq_of_forall_ge_iff
  rintro ⟨i, f, g⟩
  rw [Frame.tells, sup_le_iff, joinAll_le_iff]
  have hslot : ((0, ⊥, (t.snapshot o seq kind).counter.slot) : Knowledge) ≤ (i, f, g) ↔ t.counter.slot ≤ g :=
    ⟨fun h => h.2.2, fun h => ⟨Nat.zero_le i, bot_le, h⟩⟩
  have hpeer : ∀ {n p}, t.peers.get? n = some p → n ≠ t.me := by
    rintro n p hp rfl
    rw [hnot] at hp
    cases hp
  rw [hslot]
  constructor
  · rintro ⟨hall, hg⟩
    refine ⟨?_, fun n => ?_, hg⟩
    · show t.refutation me ≤ i
      rw [Shared.refutation]
      cases hp : t.peers.get? me with
      | none => exact Nat.zero_le i
      | some p =>
        have := tells_le_iff.mp (hall _ (mem_snapshot_updates.mpr (.inr ⟨me, p, hp, rfl⟩)))
        rw [if_pos rfl] at this
        show (if p.state ≠ .alive then p.incarnation + 1 else 0) ≤ i
        split
        · rename_i ha
          exact this ha
        · exact Nat.zero_le i
    · show update t.claim me ⊥ n ≤ f n
      by_cases hn : n = me
      · subst hn
        rw [update_self]
        exact bot_le
      · rw [update_of_ne hn, Shared.claim]
        split
        · rename_i hb
          have := tells_le_iff.mp (hall _ (mem_snapshot_updates.mpr (.inl rfl)))
          rw [if_neg (hb ▸ hn)] at this
          rw [hb]
          exact this
        · cases hp : t.peers.get? n with
          | none => exact (record_none hp).le.trans bot_le
          | some p =>
            have := tells_le_iff.mp (hall _ (mem_snapshot_updates.mpr (.inr ⟨n, p, hp, rfl⟩)))
            rw [if_neg hn] at this
            exact (record_some hp).le.trans this
  · rintro ⟨hi, hf, hg⟩
    refine ⟨fun u hu => tells_le_iff.mpr ?_, hg⟩
    rcases mem_snapshot_updates.mp hu with rfl | ⟨n, p, hp, rfl⟩
    · rw [if_neg hne]
      have hb := hf t.me
      dsimp only at hb
      rw [update_of_ne hne, Shared.claim, if_pos rfl] at hb
      exact hb
    · dsimp only
      split
      · rename_i hn
        intro ha
        subst hn
        have hi : t.refutation n ≤ i := hi
        rw [Shared.refutation, hp] at hi
        simpa only [Option.elim_some, if_pos ha] using hi
      · rename_i hn
        have hb := hf n
        dsimp only at hb
        rw [update_of_ne hn, Shared.claim, if_neg (hpeer hp), record_some hp] at hb
        exact hb

/-! ## Hearing a snapshot -/

/-- No incarnation that is recorded is the last one. -/
structure Shared.HasRoom (s : Shared) : Prop where
  self : s.incarnation < 2 ^ 64 - 1
  peers : ∀ n p, s.peers.get? n = some p → p.incarnation < 2 ^ 64 - 1

/-- The state of `s` after it has heard all that `t` knows. -/
structure Heard (s t s' : Shared) : Prop where
  incarnation : s'.incarnation = s.incarnation ⊔ t.refutation s.me
  record : ∀ n, n ≠ s.me → s'.record n = s.record n ⊔ t.claim n
  counter : s'.counter.slot = s.counter.slot ⊔ t.counter.slot

theorem reconcile_heard {a b : NodeId} (hs : ViewInv a s) (ht : ViewInv b t) (hab : a ≠ b)
    (hroom : ∀ p, t.peers.get? a = some p → p.state ≠ .alive → p.incarnation < 2 ^ 64 - 1) (timeout : Nat)
    (clock : Nat → Instant) (o : HashOrder) (seq : UInt64) (kind : Kind) :
    ViewInv a (s.reconcile timeout clock (t.snapshot o seq kind)).1 ∧
      Heard s t (s.reconcile timeout clock (t.snapshot o seq kind)).1 := by
  have hme : s.me = a := hs.me_eq
  have hnot : t.peers.get? t.me = none := by
    rw [ht.me_eq]
    exact ht.me_not_peer
  have hroom' : ∀ u ∈ (t.snapshot o seq kind).updates, u.Accuses s.me → u.incarnation + 1 < 2 ^ 64 := by
    rintro u hu ⟨hn, ha⟩
    rcases mem_snapshot_updates.mp hu with rfl | ⟨n, p, hp, rfl⟩
    · exact absurd rfl ha
    · have hn : n = a := hn.trans hme
      have := hroom p (hn ▸ hp) ha
      show p.incarnation + 1 < 2 ^ 64
      omega
  have hknows := knows_reconcile timeout clock hroom'
  rw [tells_snapshot hnot (by rw [ht.me_eq, hme]; exact hab.symm)] at hknows
  obtain ⟨hinc, hrest⟩ := Prod.mk.inj hknows
  obtain ⟨hrecord, hslot⟩ := Prod.mk.inj hrest
  refine ⟨hs.moves (reconcile_moves s timeout clock _), hinc, fun n hn => ?_, hslot⟩
  rw [hrecord]
  show s.record n ⊔ update t.claim s.me ⊥ n = _
  rw [update_of_ne hn]

theorem snapshot_overrides (hnot : t.peers.get? t.me = none) (hne : t.me ≠ s.me)
    (hlt : s.record t.me < recordOf t.incarnation .alive) (timeout : Nat) (clock : Nat → Instant) (o : HashOrder)
    (seq : UInt64) (kind : Kind) :
    (s.reconcile timeout clock (t.snapshot o seq kind)).1.record t.me = recordOf t.incarnation .alive := by
  rw [record_reconcile, tells_snapshot hnot hne, Pi.sup_apply]
  show s.record t.me ⊔ update t.claim s.me ⊥ t.me = _
  rw [update_of_ne hne, Shared.claim, if_pos rfl, sup_eq_right.mpr hlt.le]

theorem claim_wins {p : Option Peer} {i : ℕ}
    (h : p.elim 0 (fun p => if p.state ≠ .alive then p.incarnation + 1 else 0) ≤ i) :
    ∃ j, p.elim ⊥ Peer.record ⊔ recordOf i .alive = recordOf j .alive := by
  cases p with
  | none => exact ⟨i, bot_sup_eq _⟩
  | some p =>
    show ∃ j, recordOf p.incarnation p.state ⊔ recordOf i .alive = recordOf j .alive
    by_cases ha : p.state = .alive
    · rw [ha]
      rcases le_total (recordOf p.incarnation .alive) (recordOf i .alive) with hle | hle
      · exact ⟨i, sup_eq_right.mpr hle⟩
      · exact ⟨p.incarnation, sup_eq_left.mpr hle⟩
    · rw [Option.elim_some, if_pos ha] at h
      exact ⟨i, sup_eq_right.mpr (recordOf_lt.mpr (.inl h)).le⟩

/-! ## Both sides -/

theorem ViewInv.mem_iff (h : ViewInv me s) : n ∈ s.membership.nodes ↔ n = me ∨ (s.record n ≠ ⊥ ∧ ¬ (s.record n).Dead) := by
  rw [h.members]
  refine or_congr_right ⟨?_, ?_⟩
  · rintro ⟨p, hp, hd⟩
    rw [record_some hp]
    exact ⟨WithBot.coe_ne_bot, not_dead_recordOf hd⟩
  · rintro ⟨hne, hd⟩
    cases hp : s.peers.get? n with
    | none => exact absurd (record_none hp) hne
    | some p =>
      refine ⟨p, rfl, fun hs => hd ⟨p.incarnation, ?_⟩⟩
      rw [record_some hp, Peer.record, hs]

theorem ViewInv.mem_of_alive {j : ℕ} (h : ViewInv me s) (hr : s.record n = recordOf j .alive) : n ∈ s.membership.nodes := by
  rw [h.mem_iff, hr]
  exact .inr ⟨WithBot.coe_ne_bot, not_dead_recordOf nofun⟩

section Both

variable {a b : NodeId} {sa sb sa₁ sb₁ : Shared}

theorem nodes_agree {i j : ℕ} (ha : ViewInv a sa) (hb : ViewInv b sb) (hab : sb.record a = recordOf i .alive)
    (hba : sa.record b = recordOf j .alive) (hrest : ∀ n, n ≠ a → n ≠ b → sa.record n = sb.record n) :
    sa.membership.nodes = sb.membership.nodes := by
  ext n
  by_cases hna : n = a
  · subst hna
    exact iff_of_true (ha.mem_iff.mpr (.inl rfl)) (hb.mem_of_alive hab)
  · by_cases hnb : n = b
    · subst hnb
      exact iff_of_true (ha.mem_of_alive hba) (hb.mem_iff.mpr (.inl rfl))
    · rw [ha.mem_iff, hb.mem_iff, hrest n hna hnb]
      simp only [hna, hnb, false_or]

theorem Heard.alive (h : Heard s t s') (hne : t.me ≠ s.me) (hi : s.refutation t.me ≤ t.incarnation) :
    ∃ j, s'.record t.me = recordOf j .alive := by
  rw [h.record _ hne, Shared.claim, if_pos rfl]
  exact claim_wins hi

theorem Heard.record_third (h : Heard s t s') (hs : n ≠ s.me) (ht : n ≠ t.me) : s'.record n = s.record n ⊔ t.record n := by
  rw [h.record n hs, Shared.claim, if_neg ht]

theorem record_agrees (h : Heard sb sa sb₁) (h' : Heard sa sb₁ sa₁) (ha : n ≠ sa.me) (hb : n ≠ sb.me) (hb₁ : n ≠ sb₁.me) :
    sa₁.record n = sb₁.record n := by
  rw [h'.record_third ha hb₁, h.record_third hb ha, sup_left_comm, sup_idem]

theorem counter_agrees (h : Heard sb sa sb₁) (h' : Heard sa sb₁ sa₁) : sa₁.counter = sb₁.counter := by
  apply GCounter.ext_slot
  rw [h'.counter, h.counter, sup_left_comm, sup_idem]

theorem Heard.room (h : Heard s t s') (hne : t.me ≠ s.me) (hroom : s.HasRoom) {p : Peer} (hp : s'.peers.get? t.me = some p)
    (hs : p.state ≠ .alive) : p.incarnation < 2 ^ 64 - 1 := by
  have hrec := h.record t.me hne
  rw [record_some hp, Shared.claim, if_pos rfl] at hrec
  rcases le_total (s.record t.me) (recordOf t.incarnation .alive) with hle | hle
  · rw [sup_eq_right.mpr hle] at hrec
    exact absurd (recordOf_inj hrec).2 hs
  · rw [sup_eq_left.mpr hle] at hrec
    cases hq : s.peers.get? t.me with
    | none =>
      rw [record_none hq] at hrec
      exact absurd hrec WithBot.coe_ne_bot
    | some q =>
      rw [record_some hq] at hrec
      rw [(recordOf_inj hrec).1]
      exact hroom.peers t.me q hq

end Both

/-! ## Handling a snapshot -/

section Hears

variable {a b : NodeId} {r t : Runtime}

theorem hears_view (hr : ViewInv a r.shared) (t : Runtime) (h : Hearing) : ViewInv a (r.hears t h).shared :=
  hr.moves (handle_reaches r h.order h.clock h.now _).state

theorem hears_incarnation (hr : ViewInv a r.shared) (ht : ViewInv b t.shared) (hab : a ≠ b)
    (hroom : ∀ p, t.shared.peers.get? a = some p → p.state ≠ .alive → p.incarnation < 2 ^ 64 - 1) (h : Hearing) :
    (r.hears t h).shared.incarnation = r.shared.incarnation ⊔ t.shared.refutation a := by
  have heard := (reconcile_heard hr ht hab hroom r.config.suspicionTimeout h.clock h.listed h.seq h.kind).2
  rw [Runtime.hears, handle_incarnation rfl, heard.incarnation, hr.me_eq]

/-- Whatever probe is completed, the sender is alive or recorded as it was before. -/
theorem hears_room (hr : ViewInv a r.shared) (ht : ViewInv b t.shared) (hab : a ≠ b) (hra : r.shared.HasRoom)
    (hrb : t.shared.HasRoom) (h : Hearing) {p : Peer} (hp : (r.hears t h).shared.peers.get? b = some p)
    (hs : p.state ≠ .alive) : p.incarnation < 2 ^ 64 - 1 := by
  have heard := (reconcile_heard hr ht hab (fun p hp _ => hrb.peers a p hp) r.config.suspicionTimeout h.clock h.listed
    h.seq h.kind).2
  have hne : t.shared.me ≠ r.shared.me := by
    rw [hr.me_eq, ht.me_eq]
    exact hab.symm
  refine heard.room hne hra ?_ hs
  rw [ht.me_eq]
  rcases @handle_shared r h.order h.clock h.now (t.shared.snapshot h.listed h.seq h.kind) rfl with he | ⟨node, he⟩
  · rw [← he]
    exact hp
  · rw [Runtime.hears, he] at hp
    exact (get?_markAlive hp).resolve_right hs

theorem markAlive_record (h : ∀ p, s.peers.get? n = some p → p.state = .alive) : (s.markAlive n).record = s.record := by
  unfold Shared.markAlive
  split
  · rename_i p hp
    rw [if_pos (by rw [h p hp]; nofun), record_insert, update_eq_self_iff, record_some hp, Peer.record, Peer.record, h p hp]
  · rfl

/-- A snapshot that completes no probe of a third node is heard as it is. -/
theorem hears_heard (hr : ViewInv a r.shared) (ht : ViewInv b t.shared) (hab : a ≠ b)
    (hroom : ∀ p, t.shared.peers.get? a = some p → p.state ≠ .alive → p.incarnation < 2 ^ 64 - 1)
    (hi : r.shared.refutation b ≤ t.shared.incarnation) {h : Hearing} (hthird : ∀ n, n ≠ a → n ≠ b → ¬ r.Completes h n) :
    Heard r.shared t.shared (r.hears t h).shared := by
  obtain ⟨hview, heard⟩ := reconcile_heard hr ht hab hroom r.config.suspicionTimeout h.clock h.listed h.seq h.kind
  have hturns := handle_turns r h.order h.clock h.now (some (t.shared.snapshot h.listed h.seq h.kind))
  rw [Runtime.hears]
  generalize (r.handle _ _ _ _).1 = r' at hturns ⊢
  cases hturns with
  | ignored hd => exact absurd rfl (hd _ rfl)
  | heard => exact heard
  | @acked _ _ _ _ p _ hp hkind hseq =>
    -- the target is alive by now, or this node itself
    have hrecord := markAlive_record (s := (r.shared.reconcile _ _ _).1) (n := p.target) (fun q hq => by
      by_cases hb : p.target = b
      · obtain ⟨j, hj⟩ := heard.alive (by rw [hr.me_eq, ht.me_eq]; exact hab.symm) (by rw [ht.me_eq]; exact hi)
        rw [ht.me_eq, ← hb, record_some hq] at hj
        exact (recordOf_inj hj).2
      · by_cases ha : p.target = a
        · rw [ha, hview.me_not_peer] at hq
          cases hq
        · exact absurd ⟨hkind, p, hp, hseq.symm, rfl⟩ (hthird p.target ha hb))
    refine ⟨(markAlive_incarnation ..).trans heard.incarnation, fun n hn => (congrFun hrecord n).trans (heard.record n hn), ?_⟩
    rw [markAlive_counter]
    exact heard.counter

end Hears

end Pulsate.Cluster
