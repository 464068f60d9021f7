import Pulsate.Cluster.Lemmas.Join

/-!
# What a delivery leaves

The records and the counter after a delivery are joins over its frames, and the membership set follows the
records.
-/

namespace Pulsate.Cluster

open Pulsate.Lib List

variable {s₀ s : Shared}

variable {timeout : Nat} {clock : Nat → Instant}

/-! ## Membership -/

/-- The record of a dead node. -/
def Record.Dead (r : Record) : Prop := ∃ i, r = recordOf i .dead

theorem not_dead_recordOf {i : Nat} {state : MemberState} (h : state ≠ .dead) : ¬ Record.Dead (recordOf i state) := by
  rintro ⟨j, hj⟩
  exact h (recordOf_inj hj).2

/-- The records of `s` are at least those of `s₀`, and the membership of a node whose record has changed is decided
by its record. -/
structure Follows (s₀ s : Shared) : Prop where
  me_eq : s.me = s₀.me
  owner : s.membership.me = s₀.me
  self : s₀.me ∈ s.membership.nodes ↔ s₀.me ∈ s₀.membership.nodes
  grows : ∀ n, s₀.record n ≤ s.record n
  same : ∀ n, n ≠ s₀.me → s.record n = s₀.record n → (n ∈ s.membership.nodes ↔ n ∈ s₀.membership.nodes)
  changed : ∀ n, n ≠ s₀.me → s.record n ≠ s₀.record n → (n ∈ s.membership.nodes ↔ ¬ (s.record n).Dead)

theorem Follows.refl (h : s.Tracked) : Follows s s where
  me_eq := rfl
  owner := h.owner
  self := Iff.rfl
  grows := fun _ => le_rfl
  same := fun _ _ _ => Iff.rfl
  changed := fun _ _ hne => absurd rfl hne

theorem Follows.record {n : NodeId} {p : Peer} {m : Membership} (h : Follows s₀ s) (hn : n ≠ s₀.me)
    (hlt : s.record n < p.record) (hm : m.me = s₀.me) (hin : n ∈ m.nodes ↔ ¬ Record.Dead p.record)
    (hout : ∀ x, x ≠ n → (x ∈ m.nodes ↔ x ∈ s.membership.nodes)) :
    Follows s₀ { s with peers := s.peers.insert n p, membership := m } := by
  have hrec := record_insert (s := s) (p := p) (m := m) (n := n)
  refine ⟨h.me_eq, hm, (hout _ (Ne.symm hn)).trans h.self, ?_, ?_, ?_⟩
  · intro x
    rw [hrec]
    by_cases hx : x = n
    · subst hx
      rw [Function.update_self]
      exact (h.grows x).trans hlt.le
    · rw [Function.update_of_ne hx]
      exact h.grows x
  · intro x hx hsame
    rw [hrec] at hsame
    by_cases hxn : x = n
    · subst hxn
      rw [Function.update_self] at hsame
      exact absurd (hsame ▸ hlt) (not_lt.mpr (h.grows x))
    · rw [Function.update_of_ne hxn] at hsame
      exact (hout x hxn).trans (h.same x hx hsame)
  · intro x hx hne
    rw [hrec] at hne ⊢
    by_cases hxn : x = n
    · subst hxn
      rw [Function.update_self]
      exact hin
    · rw [Function.update_of_ne hxn] at hne ⊢
      exact (hout x hxn).trans (h.changed x hx hne)

theorem Follows.applyUpdate (ht : s₀.Tracked) (h : Follows s₀ s) (timeout : Nat) (now : Instant) (u : MemberUpdate) :
    Follows s₀ (s.applyUpdate timeout now u).1 := by
  by_cases hme : u.node = s.me
  · rw [applyUpdate_self timeout now hme]
    exact ⟨h.me_eq, h.owner, h.self, h.grows, h.same, h.changed⟩
  · have hn : u.node ≠ s₀.me := h.me_eq ▸ hme
    have hown : u.node ≠ s.membership.me := by
      rw [h.owner]
      exact hn
    rcases applyUpdate_other timeout now hme with ⟨-, he⟩ | ⟨hlt, p, m, he, hp, hm⟩
    · rw [he]
      exact h
    · rw [he]
      rw [← hp] at hlt
      rcases hm with ⟨hd, rfl⟩ | ⟨hd, rfl⟩ | ⟨hd, hnone, rfl⟩
      · refine h.record hn hlt h.owner ?_ (fun x hx => by simp [hx])
        rw [hp]
        exact iff_of_true (by simp) (not_dead_recordOf hd)
      · have hdead : Record.Dead p.record := ⟨u.incarnation, by rw [hp, MemberUpdate.record, hd]⟩
        refine h.record hn hlt (by rw [Membership.leave_me]; exact h.owner) ?_ (fun x hx => ?_)
        · exact iff_of_false (by simp [Membership.mem_leave hown]) (not_not.mpr hdead)
        · simp [Membership.mem_leave hown, hx]
      · -- a node first heard of as dead is not a member to begin with
        have hdead : Record.Dead p.record := ⟨u.incarnation, by rw [hp, MemberUpdate.record, hd]⟩
        have hbot : s.record u.node = ⊥ := Shared.record_none hnone
        have hbot₀ : s₀.record u.node = ⊥ := le_bot_iff.mp (hbot ▸ h.grows u.node)
        have hnot : u.node ∉ s₀.membership.nodes := by
          intro hmem
          obtain ⟨q, hq⟩ := Option.isSome_iff_exists.mp (ht.known _ hmem hn)
          rw [Shared.record_some hq] at hbot₀
          exact WithBot.coe_ne_bot hbot₀
        refine h.record hn hlt h.owner ?_ (fun x hx => Iff.rfl)
        rw [h.same _ hn (hbot.trans hbot₀.symm)]
        exact iff_of_false hnot (not_not.mpr hdead)

theorem Follows.applyUpdates (ht : s₀.Tracked) (h : Follows s₀ s) (timeout : Nat) (clock : Nat → Instant)
    (us : List MemberUpdate) : Follows s₀ (Shared.applyUpdates timeout clock s us).1 := by
  induction us generalizing s with
  | nil => exact h
  | cons u us ih => exact ih (h.applyUpdate ht timeout (clock us.length) u)

theorem Follows.deliver (ht : s₀.Tracked) (h : Follows s₀ s) (timeout : Nat) (ds : List ((Nat → Instant) × Frame)) :
    Follows s₀ (s.deliver timeout ds) := by
  induction ds generalizing s with
  | nil => exact h
  | cons d ds ih =>
    have hu := h.applyUpdates ht timeout d.1 d.2.updates
    exact ih ⟨hu.me_eq, hu.owner, hu.self, hu.grows, hu.same, hu.changed⟩

theorem Follows.nodes_eq {t : Shared} (h : Follows s₀ s) (h' : Follows s₀ t) (hrec : s.record = t.record) :
    s.membership.nodes = t.membership.nodes := by
  ext n
  by_cases hn : n = s₀.me
  · subst hn
    exact h.self.trans h'.self.symm
  · by_cases hc : s.record n = s₀.record n
    · exact (h.same n hn hc).trans (h'.same n hn (hrec ▸ hc)).symm
    · rw [h.changed n hn hc, h'.changed n hn (hrec ▸ hc), hrec]

/-! ## Knowledge -/

/-- No update of the frame is at the last incarnation. -/
def Frame.HasRoom (f : Frame) : Prop := ∀ u ∈ f.updates, u.incarnation < 2 ^ 64 - 1

theorem knows_deliver {ds : List ((Nat → Instant) × Frame)} (h : ∀ d ∈ ds, d.2.HasRoom) :
    (s.deliver timeout ds).knows = s.knows ⊔ joinAll (Frame.tells s.me) (ds.map Prod.snd) := by
  have hroom : ∀ (t : Shared) (d : (Nat → Instant) × Frame), d.2.HasRoom →
      ∀ u ∈ d.2.updates, u.Accuses t.me → u.incarnation + 1 < 2 ^ 64 := by
    intro t d hd u hu _
    have := hd u hu
    omega
  have hjoin : joinAll (Frame.tells s.me) (ds.map Prod.snd) = joinAll (fun d => d.2.tells s.me) ds := by
    apply eq_of_forall_ge_iff
    intro b
    rw [joinAll_le_iff, joinAll_le_iff, forall_mem_map]
  rw [hjoin]
  refine foldl_joins Shared.knows (I := fun t => t.me = s.me) (P := fun d => d.2.HasRoom) ?_ ?_ rfl h
  · intro t d ht hd
    exact (reconcile_me timeout d.1).trans ht
  · intro t d ht hd
    rw [knows_reconcile timeout d.1 (hroom t d hd), ht]

theorem tells_regroup (me : NodeId) {f g h : Frame} (hupdates : h.updates = f.updates ++ g.updates)
    (hcounter : h.counter = f.counter.merge g.counter) : h.tells me = f.tells me ⊔ g.tells me := by
  have hslot : ((0, ⊥, h.counter.slot) : Knowledge) = (0, ⊥, f.counter.slot) ⊔ (0, ⊥, g.counter.slot) := by
    rw [hcounter, GCounter.slot_merge]
    exact Prod.ext (sup_bot_eq _).symm (Prod.ext (sup_bot_eq _).symm rfl)
  rw [Frame.tells, Frame.tells, Frame.tells, hupdates, joinAll_append, hslot]
  exact sup_sup_sup_comm _ _ _ _

theorem Redelivered.tells {fs gs : List Frame} (h : Redelivered fs gs) (me : NodeId) :
    joinAll (Frame.tells me) fs = joinAll (Frame.tells me) gs := by
  induction h with
  | perm h => exact joinAll_congr (fun x => h.mem_iff)
  | again h => exact (sup_eq_right.mpr (le_joinAll h)).symm
  | regroup hupdates hcounter =>
    rw [joinAll_cons, joinAll_cons, joinAll_cons, tells_regroup me hupdates hcounter, sup_assoc]
  | symm _ ih => exact ih.symm
  | trans _ _ ih₁ ih₂ => exact ih₁.trans ih₂

theorem Redelivered.hasRoom {fs gs : List Frame} (h : Redelivered fs gs) :
    (∀ f ∈ fs, f.HasRoom) ↔ ∀ g ∈ gs, g.HasRoom := by
  induction h with
  | perm h => simp only [h.mem_iff]
  | again h =>
    rw [forall_mem_cons]
    exact ⟨fun hall => ⟨hall _ h, hall⟩, fun hall => hall.2⟩
  | regroup hupdates _ =>
    simp only [forall_mem_cons, Frame.HasRoom, hupdates, forall_mem_append, and_assoc]
  | symm _ ih => exact ih.symm
  | trans _ _ ih₁ ih₂ => exact ih₁.trans ih₂

/-! ## Overflow -/

/-- Each update that makes another node suspect, being later than the record of it and than what was said of it before,
does so until a time that an `Instant` reaches. -/
def Shared.InTime (s : Shared) (timeout : Nat) (clock : Nat → Instant) (us : List MemberUpdate) : Prop :=
  ∀ pre u post, us = pre ++ u :: post → u.node ≠ s.me → u.state = .suspect → s.record u.node < u.record →
    (∀ v ∈ pre, v.node = u.node → v.record < u.record) → clock post.length + timeout < instantEnd

theorem supersedes_iff {u : MemberUpdate} :
    (s.peers.get? u.node).all (fun p => decide (u.Supersedes p)) ↔ s.record u.node < u.record := by
  cases hp : s.peers.get? u.node with
  | none =>
    rw [Shared.record_none hp]
    exact iff_of_true rfl (WithBot.bot_lt_coe _)
  | some p =>
    rw [Shared.record_some hp, Option.all_some, decide_eq_true_eq, MemberUpdate.Supersedes, Peer.record, MemberUpdate.record,
      recordOf_lt, eq_comm (a := u.incarnation)]

theorem updateOverflows_iff {now : Instant} {u : MemberUpdate} (hroom : u.Accuses s.me → u.incarnation + 1 < 2 ^ 64) :
    s.updateOverflows timeout now u = false ↔
      (u.node ≠ s.me → u.state = .suspect → s.record u.node < u.record → now + timeout < instantEnd) := by
  rw [Shared.updateOverflows]
  by_cases hn : u.node = s.me
  · rw [if_pos hn, decide_eq_false_iff_not]
    refine iff_of_true (fun hc => ?_) (absurd hn)
    exact absurd (hroom ⟨hn, hc.1⟩) (not_lt.mpr hc.2.2)
  · rw [if_neg hn, imp_iff_right hn, ← supersedes_iff, ← Bool.not_eq_true, Bool.and_eq_true, Bool.and_eq_true,
      decide_eq_true_eq, decide_eq_true_eq, not_and, and_imp, not_le]

theorem record_applyUpdate_lt {now : Instant} {u v : MemberUpdate} (hv : v.node ≠ s.me) :
    (s.applyUpdate timeout now u).1.record v.node < v.record ↔
      s.record v.node < v.record ∧ (u.node = v.node → u.record < v.record) := by
  rw [record_applyUpdate, Pi.sup_apply, sup_lt_iff, MemberUpdate.tells]
  refine and_congr_right (fun _ => ?_)
  split
  · rename_i hu
    exact iff_of_true (WithBot.bot_lt_coe _) (fun h => absurd (h.symm.trans hu) hv)
  · dsimp only
    by_cases h : u.node = v.node
    · rw [imp_iff_right h, h, Function.update_self]
    · rw [Function.update_of_ne (Ne.symm h)]
      exact iff_of_true (WithBot.bot_lt_coe _) (absurd · h)

theorem inTime_cons {now : Instant} {u : MemberUpdate} {us : List MemberUpdate} : s.InTime timeout clock (u :: us) ↔
    (u.node ≠ s.me → u.state = .suspect → s.record u.node < u.record → clock us.length + timeout < instantEnd) ∧
      (s.applyUpdate timeout now u).1.InTime timeout clock us := by
  constructor
  · refine fun h => ⟨fun hn hs hlt => h [] u us rfl hn hs hlt nofun, ?_⟩
    rintro pre v post rfl hn hs hlt hpre
    rw [applyUpdate_me] at hn
    obtain ⟨hrecord, hu⟩ := (record_applyUpdate_lt hn).mp hlt
    exact h (u :: pre) v post rfl hn hs hrecord (forall_mem_cons.mpr ⟨hu, hpre⟩)
  · rintro ⟨hhead, htail⟩ pre v post he hn hs hlt hpre
    cases pre with
    | nil =>
      cases he
      exact hhead hn hs hlt
    | cons w pre =>
      cases he
      obtain ⟨hu, hpre⟩ := forall_mem_cons.mp hpre
      refine htail pre v post rfl ?_ hs ((record_applyUpdate_lt hn).mpr ⟨hlt, hu⟩) hpre
      rw [applyUpdate_me]
      exact hn

/-- Where every accusation leaves a successor, updates panic only over the deadlines they set. -/
theorem overflows_iff {us : List MemberUpdate} (hroom : ∀ u ∈ us, u.Accuses s.me → u.incarnation + 1 < 2 ^ 64) :
    Shared.overflows timeout clock s us = false ↔ s.InTime timeout clock us := by
  induction us generalizing s with
  | nil => exact iff_of_true rfl (fun pre u post h => absurd h (by simp))
  | cons u us ih =>
    rw [forall_mem_cons] at hroom
    rw [Shared.overflows, Bool.or_eq_false_iff, updateOverflows_iff hroom.1, inTime_cons, ih]
    rw [applyUpdate_me]
    exact hroom.2

theorem applyUpdate_incarnation_lt {now : Instant} {u : MemberUpdate} (h : s.incarnation < 2 ^ 64) :
    (s.applyUpdate timeout now u).1.incarnation < 2 ^ 64 := by
  by_cases hn : u.node = s.me
  · rw [applyUpdate_self timeout now hn]
    dsimp only
    split
    · exact Nat.mod_lt _ (by decide)
    · exact h
  · rcases applyUpdate_other timeout now hn with ⟨-, he⟩ | ⟨-, p, m, he, -⟩
    · rw [he]
      exact h
    · rw [he]
      exact h

theorem applyUpdates_incarnation_lt {us : List MemberUpdate} (h : s.incarnation < 2 ^ 64) :
    (Shared.applyUpdates timeout clock s us).1.incarnation < 2 ^ 64 := by
  induction us generalizing s with
  | nil => exact h
  | cons u us ih => exact ih (applyUpdate_incarnation_lt h)

theorem reconcile_outlives {f : Frame} (hroom : ∀ u ∈ f.updates, u.Accuses s.me → u.incarnation + 1 < 2 ^ 64) :
    s.incarnation ≤ (s.reconcile timeout clock f).1.incarnation ∧
      ∀ u ∈ f.updates, u.Accuses s.me → u.incarnation < (s.reconcile timeout clock f).1.incarnation := by
  have hinc : (s.reconcile timeout clock f).1.incarnation = s.incarnation ⊔ (f.tells s.me).1 :=
    congrArg Prod.fst (knows_reconcile timeout clock hroom)
  rw [hinc]
  refine ⟨le_sup_left, fun u hu ha => ?_⟩
  have htold : u.tells s.me ≤ f.tells s.me := le_trans (le_joinAll hu) le_sup_left
  have hu := htold.1
  rw [MemberUpdate.tells, if_pos ha.1, if_pos ha.2] at hu
  exact lt_of_lt_of_le (Nat.lt_succ_self _) (le_trans hu le_sup_right)

end Pulsate.Cluster
