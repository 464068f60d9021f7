import Mathlib.Data.Prod.Lex
import Mathlib.Order.Lattice.Nat
import Mathlib.Order.WithBot
import Pulsate.Cluster.Lemmas.View
import Pulsate.Lib.Join

/-!
# The join behind reconciliation

What a node knows is an element of a semilattice: its own incarnation, for every node the latest
incarnation and rank it has heard of, and for every node the slot of the counter. Handling a frame joins
what the frame says into it.
-/

namespace Pulsate.Cluster

open Pulsate.Lib Option OrdMap Shared Function

variable {n : NodeId} {us : List MemberUpdate}

/-! ## Records -/

/-- What is known of a peer: nothing, or an incarnation and a rank, compared in this order. -/
abbrev Record := WithBot (ℕ ×ₗ ℕ)

def recordOf (incarnation : Nat) (state : MemberState) : Record := ((toLex (incarnation, state.rank) : ℕ ×ₗ ℕ) : Record)

def Peer.record (p : Peer) : Record := recordOf p.incarnation p.state

def MemberUpdate.record (u : MemberUpdate) : Record := recordOf u.incarnation u.state

def Shared.record (s : Shared) (n : NodeId) : Record := (s.peers.get? n).elim ⊥ Peer.record

theorem MemberState.rank_injective : Injective MemberState.rank := by
  intro a b h
  cases a <;> cases b <;> first | rfl | cases h

theorem recordOf_lt {i j : Nat} {a b : MemberState} :
    recordOf i a < recordOf j b ↔ i < j ∨ (i = j ∧ a.rank < b.rank) := by
  rw [recordOf, recordOf, WithBot.coe_lt_coe, Prod.Lex.toLex_lt_toLex]

theorem recordOf_inj {i j : Nat} {a b : MemberState} (h : recordOf i a = recordOf j b) : i = j ∧ a = b := by
  have h := toLex.injective (WithBot.coe_injective h)
  exact ⟨(Prod.mk.inj h).1, MemberState.rank_injective (Prod.mk.inj h).2⟩

theorem Shared.record_none {s : Shared} (h : s.peers.get? n = none) : s.record n = ⊥ := by
  rw [Shared.record, h]
  rfl

theorem Shared.record_some {s : Shared} {p : Peer} (h : s.peers.get? n = some p) : s.record n = p.record := by
  rw [Shared.record, h]
  rfl

theorem Shared.record_eq_bot {s : Shared} : s.record n = ⊥ ↔ s.peers.get? n = none := by
  constructor
  · intro h
    cases hp : s.peers.get? n with
    | none => rfl
    | some p =>
      rw [record_some hp] at h
      exact absurd h WithBot.coe_ne_bot
  · exact record_none

theorem Shared.exists_of_record {s : Shared} {i : Nat} {state : MemberState} (h : s.record n = recordOf i state) :
    ∃ p, s.peers.get? n = some p ∧ p.incarnation = i ∧ p.state = state := by
  cases hp : s.peers.get? n with
  | none =>
    rw [record_none hp] at h
    exact absurd h.symm WithBot.coe_ne_bot
  | some p =>
    rw [record_some hp] at h
    exact ⟨p, rfl, (recordOf_inj h).1, (recordOf_inj h).2⟩

theorem Shared.entry_of_record {s t : Shared} (h : s.record n = t.record n) :
    (s.peers.get? n).map (fun p => (p.incarnation, p.state)) =
      (t.peers.get? n).map (fun p => (p.incarnation, p.state)) := by
  cases hs : s.peers.get? n with
  | none =>
    cases ht : t.peers.get? n with
    | none => rfl
    | some q =>
      rw [record_none hs, record_some ht] at h
      exact absurd h.symm (WithBot.coe_ne_bot)
  | some p =>
    cases ht : t.peers.get? n with
    | none =>
      rw [record_none ht, record_some hs] at h
      exact absurd h (WithBot.coe_ne_bot)
    | some q =>
      rw [record_some hs, record_some ht] at h
      obtain ⟨hi, hst⟩ := recordOf_inj h
      rw [map_some, map_some, hi, hst]

/-! ## The counter -/

/-- The slot of a node, the bottom one if it has none. -/
def slotAt (m : OrdMap NodeId ℕ) (n : NodeId) : WithBot ℕ := (m.get? n).elim ⊥ (fun v => WithBot.some v)

def GCounter.slot (c : GCounter) : NodeId → WithBot ℕ := slotAt c.counts

theorem slotAt_none {m : OrdMap NodeId ℕ} (h : m.get? n = none) : slotAt m n = ⊥ := by
  rw [slotAt, h]
  rfl

theorem slotAt_some {m : OrdMap NodeId ℕ} {v : ℕ} (h : m.get? n = some v) : slotAt m n = WithBot.some v := by
  rw [slotAt, h]
  rfl

theorem GCounter.ext_slot {c d : GCounter} (h : c.slot = d.slot) : c = d := by
  obtain ⟨c⟩ := c
  obtain ⟨d⟩ := d
  congr 1
  apply ext_get?
  intro n
  have hn : slotAt c n = slotAt d n := congrFun h n
  cases hc : c.get? n with
  | none =>
    cases hd : d.get? n with
    | none => rfl
    | some w =>
      rw [slotAt_none hc, slotAt_some hd] at hn
      exact absurd hn.symm WithBot.coe_ne_bot
  | some v =>
    cases hd : d.get? n with
    | none =>
      rw [slotAt_none hd, slotAt_some hc] at hn
      exact absurd hn WithBot.coe_ne_bot
    | some w =>
      rw [slotAt_some hc, slotAt_some hd] at hn
      rw [WithBot.coe_injective hn]

theorem slotAt_alter_max (m : OrdMap NodeId ℕ) (e : NodeId × ℕ) (n : NodeId) :
    slotAt (m.alter e.1 (fun old => max (old.getD 0) e.2)) n = slotAt m n ⊔ if e.1 = n then WithBot.some e.2 else ⊥ := by
  by_cases hn : n = e.1
  · subst hn
    rw [if_pos rfl]
    cases hm : m.get? e.1 with
    | none =>
      rw [slotAt_none hm, bot_sup_eq]
      refine slotAt_some ?_
      rw [get?_alter, if_pos rfl, hm, getD_none, Nat.zero_max]
    | some v =>
      rw [slotAt_some hm, ← WithBot.coe_sup]
      refine slotAt_some ?_
      rw [get?_alter, if_pos rfl, hm, getD_some]
  · rw [if_neg (Ne.symm hn), sup_bot_eq, slotAt, slotAt, get?_alter, if_neg hn]

theorem GCounter.slot_merge (c d : GCounter) : (c.merge d).slot = c.slot ⊔ d.slot := by
  have hfold : ∀ (es : List (NodeId × ℕ)) (m : OrdMap NodeId ℕ) (n : NodeId),
      slotAt (es.foldl (fun m e => m.alter e.1 (fun old => max (old.getD 0) e.2)) m) n =
        slotAt m n ⊔ joinAll (fun e => if e.1 = n then WithBot.some e.2 else ⊥) es :=
    fun es m n => foldl_joins (slotAt · n) (I := fun _ => True) (P := fun _ => True) (fun _ _ _ _ => trivial)
      (fun m e _ _ => slotAt_alter_max m e n) trivial (fun _ _ => trivial)
  funext n
  refine (hfold d.counts.entries c.counts n).trans ?_
  rw [Pi.sup_apply]
  congr 1
  apply eq_of_forall_ge_iff
  intro b
  rw [joinAll_le_iff]
  constructor
  · intro h
    cases hd : d.counts.get? n with
    | none => exact (slotAt_none hd).le.trans bot_le
    | some v =>
      have := h (n, v) (mem_entries_iff.mpr hd)
      rw [if_pos rfl] at this
      exact (slotAt_some hd).le.trans this
  · rintro h ⟨k, v⟩ he
    dsimp only
    split
    · rename_i hk
      subst hk
      exact (slotAt_some (mem_entries_iff.mp he)).ge.trans h
    · exact bot_le

/-! ## Knowledge -/

/-- A node's own incarnation, its records and its counter. -/
abbrev Knowledge := ℕ × (NodeId → Record) × (NodeId → WithBot ℕ)

def Shared.knows (s : Shared) : Knowledge := (s.incarnation, s.record, s.counter.slot)

/-- The update says that `me` has failed. -/
def MemberUpdate.Accuses (u : MemberUpdate) (me : NodeId) : Prop := u.node = me ∧ u.state ≠ .alive

instance (u : MemberUpdate) (me : NodeId) : Decidable (u.Accuses me) := inferInstanceAs (Decidable (_ ∧ _))

/-- What an update tells the node `me`: to outlive an accusation, or a record of another node. -/
def MemberUpdate.tells (me : NodeId) (u : MemberUpdate) : Knowledge :=
  if u.node = me then (if u.state ≠ .alive then u.incarnation + 1 else 0, ⊥, ⊥)
  else (0, update ⊥ u.node u.record, ⊥)

def Frame.tells (me : NodeId) (f : Frame) : Knowledge := joinAll (MemberUpdate.tells me) f.updates ⊔ (0, ⊥, f.counter.slot)

/-! ## Updates -/

section Updates

variable {s : Shared} {u : MemberUpdate} (timeout : Nat) (now : Instant)

theorem applyUpdate_self (h : u.node = s.me) : (s.applyUpdate timeout now u).1 =
    { s with incarnation :=
        if u.state ≠ .alive ∧ s.incarnation ≤ u.incarnation then u64 (u.incarnation + 1) else s.incarnation } := by
  have hstate : (u.state = .suspect ∨ u.state = .dead) ↔ u.state ≠ .alive := by
    cases u.state <;> simp
  rw [Shared.applyUpdate, if_pos h]
  by_cases hc : u.state ≠ .alive ∧ s.incarnation ≤ u.incarnation
  · rw [if_pos hc, if_pos ⟨hstate.mpr hc.1, hc.2⟩]
  · rw [if_neg hc, if_neg (fun h => hc ⟨hstate.mp h.1, h.2⟩)]

/-- The record of another node is replaced if the update is later, and its membership follows; a node that is dead
when first heard of does not leave. -/
theorem applyUpdate_other (h : u.node ≠ s.me) :
    (u.record ≤ s.record u.node ∧ (s.applyUpdate timeout now u).1 = s) ∨
      (s.record u.node < u.record ∧ ∃ p m,
        (s.applyUpdate timeout now u).1 = { s with peers := s.peers.insert u.node p, membership := m } ∧
          p.record = u.record ∧
          ((u.state ≠ .dead ∧ m = s.membership.join u.node) ∨
            (u.state = .dead ∧ m = s.membership.leave u.node) ∨
            (u.state = .dead ∧ s.peers.get? u.node = none ∧ m = s.membership))) := by
  rw [Shared.applyUpdate, if_neg h]
  cases hp : s.peers.get? u.node with
  | none =>
    right
    refine ⟨by rw [record_none hp]; exact WithBot.bot_lt_coe _, ?_⟩
    dsimp only
    by_cases hd : u.state = .dead
    · rw [if_neg (not_not.mpr hd)]
      exact ⟨_, _, rfl, rfl, .inr (.inr ⟨hd, rfl, rfl⟩)⟩
    · rw [if_pos hd]
      exact ⟨_, _, rfl, rfl, .inl ⟨hd, rfl⟩⟩
  | some peer =>
    dsimp only
    have hlt : (u.incarnation > peer.incarnation ∨
        (u.incarnation = peer.incarnation ∧ u.state.rank > peer.state.rank)) ↔ s.record u.node < u.record := by
      rw [record_some hp, Peer.record, MemberUpdate.record, recordOf_lt, eq_comm (a := u.incarnation)]
    split
    · rename_i hsup
      refine .inr ⟨hlt.mp hsup, ?_⟩
      cases hs : u.state with
      | alive => exact ⟨_, _, rfl, by rw [MemberUpdate.record, hs]; rfl, .inl ⟨nofun, rfl⟩⟩
      | suspect => exact ⟨_, _, rfl, by rw [MemberUpdate.record, hs]; rfl, .inl ⟨nofun, rfl⟩⟩
      | dead => exact ⟨_, _, rfl, by rw [MemberUpdate.record, hs]; rfl, .inr (.inl ⟨rfl, rfl⟩)⟩
    · rename_i hno
      exact .inl ⟨not_lt.mp (fun hc => hno (hlt.mpr hc)), rfl⟩

theorem applyUpdate_me : (s.applyUpdate timeout now u).1.me = s.me := by
  by_cases h : u.node = s.me
  · rw [applyUpdate_self timeout now h]
  · rcases applyUpdate_other timeout now h with ⟨-, he⟩ | ⟨-, p, m, he, -⟩
    · rw [he]
    · rw [he]

theorem record_insert {p : Peer} {m : Membership} :
    ({ s with peers := s.peers.insert n p, membership := m } : Shared).record = update s.record n p.record := by
  funext x
  by_cases hx : x = n
  · subst hx
    rw [update_self]
    exact record_some (get?_insert_self _ _ _)
  · rw [update_of_ne hx, Shared.record, Shared.record, get?_insert_ne _ _ hx]

theorem sup_update_bot (f : NodeId → Record) (n : NodeId) (r : Record) :
    f ⊔ update ⊥ n r = update f n (f n ⊔ r) := by
  funext x
  by_cases hx : x = n
  · subst hx
    rw [Pi.sup_apply, update_self, update_self]
  · rw [Pi.sup_apply, update_of_ne hx, update_of_ne hx, Pi.bot_apply, sup_bot_eq]

theorem record_applyUpdate : (s.applyUpdate timeout now u).1.record = s.record ⊔ (u.tells s.me).2.1 := by
  rw [MemberUpdate.tells]
  by_cases h : u.node = s.me
  · rw [applyUpdate_self timeout now h, if_pos h]
    exact (sup_bot_eq s.record).symm
  · rw [if_neg h, sup_update_bot]
    rcases applyUpdate_other timeout now h with ⟨hle, he⟩ | ⟨hlt, p, m, he, hp, -⟩
    · rw [he, sup_eq_left.mpr hle, update_eq_self]
    · rw [he, sup_eq_right.mpr hlt.le, ← hp, record_insert]

/-- The incarnation is joined with what the update tells, unless its own has no successor. -/
theorem incarnation_applyUpdate (hroom : u.Accuses s.me → u.incarnation + 1 < 2 ^ 64) :
    (s.applyUpdate timeout now u).1.incarnation = s.incarnation ⊔ (u.tells s.me).1 := by
  rw [MemberUpdate.tells]
  by_cases h : u.node = s.me
  · rw [applyUpdate_self timeout now h, if_pos h]
    dsimp only
    by_cases ha : u.state ≠ .alive
    · rw [if_pos ha]
      split
      · rename_i hge
        rw [u64, Nat.mod_eq_of_lt (hroom ⟨h, ha⟩), sup_eq_right.mpr (hge.2.trans (Nat.le_succ _))]
      · rename_i hlt
        rw [sup_eq_left.mpr (Nat.succ_le_of_lt (not_le.mp (fun hle => hlt ⟨ha, hle⟩)))]
    · rw [if_neg ha, if_neg (fun hc => ha hc.1)]
      exact (sup_bot_eq s.incarnation).symm
  · rw [if_neg h]
    rcases applyUpdate_other timeout now h with ⟨-, he⟩ | ⟨-, p, m, he, -⟩
    · rw [he]
      exact (sup_bot_eq s.incarnation).symm
    · rw [he]
      exact (sup_bot_eq s.incarnation).symm

theorem counter_applyUpdate : (s.applyUpdate timeout now u).1.counter = s.counter := by
  by_cases h : u.node = s.me
  · rw [applyUpdate_self timeout now h]
  · rcases applyUpdate_other timeout now h with ⟨-, he⟩ | ⟨-, p, m, he, -⟩
    · rw [he]
    · rw [he]

theorem slots_tells (me : NodeId) (u : MemberUpdate) : (u.tells me).2.2 = ⊥ := by
  rw [MemberUpdate.tells]
  split <;> rfl

theorem knows_applyUpdate (hroom : u.Accuses s.me → u.incarnation + 1 < 2 ^ 64) :
    (s.applyUpdate timeout now u).1.knows = s.knows ⊔ u.tells s.me := by
  refine Prod.ext (incarnation_applyUpdate timeout now hroom) (Prod.ext (record_applyUpdate timeout now) ?_)
  show (s.applyUpdate timeout now u).1.counter.slot = s.counter.slot ⊔ (u.tells s.me).2.2
  rw [counter_applyUpdate, slots_tells, sup_bot_eq]

end Updates

/-! ## Frames -/

section Frames

variable {s : Shared} (timeout : Nat) (clock : Nat → Instant)

theorem applyUpdates_me : (Shared.applyUpdates timeout clock s us).1.me = s.me := by
  induction us generalizing s with
  | nil => rfl
  | cons u us ih => exact ih.trans (applyUpdate_me timeout _)

theorem record_applyUpdates : (Shared.applyUpdates timeout clock s us).1.record =
    s.record ⊔ (joinAll (MemberUpdate.tells s.me) us).2.1 := by
  induction us generalizing s with
  | nil => exact (sup_bot_eq s.record).symm
  | cons u us ih =>
    refine (ih (s := (s.applyUpdate timeout (clock us.length) u).1)).trans ?_
    rw [record_applyUpdate, applyUpdate_me, sup_assoc]
    rfl

theorem knows_applyUpdates (hroom : ∀ u ∈ us, u.Accuses s.me → u.incarnation + 1 < 2 ^ 64) :
    (Shared.applyUpdates timeout clock s us).1.knows = s.knows ⊔ joinAll (MemberUpdate.tells s.me) us := by
  induction us generalizing s with
  | nil => exact (sup_bot_eq _).symm
  | cons u us ih =>
    rw [List.forall_mem_cons] at hroom
    refine (ih (s := (s.applyUpdate timeout (clock us.length) u).1) ?_).trans ?_
    · rw [applyUpdate_me]
      exact hroom.2
    · rw [knows_applyUpdate timeout (clock us.length) hroom.1, applyUpdate_me, joinAll_cons, sup_assoc]

theorem reconcile_me {f : Frame} : (s.reconcile timeout clock f).1.me = s.me := applyUpdates_me timeout clock

theorem record_reconcile {f : Frame} : (s.reconcile timeout clock f).1.record = s.record ⊔ (f.tells s.me).2.1 := by
  refine (record_applyUpdates timeout clock).trans ?_
  rw [Frame.tells]
  exact congrArg (s.record ⊔ ·) (sup_bot_eq _).symm

theorem knows_reconcile {f : Frame} (hroom : ∀ u ∈ f.updates, u.Accuses s.me → u.incarnation + 1 < 2 ^ 64) :
    (s.reconcile timeout clock f).1.knows = s.knows ⊔ f.tells s.me := by
  have h := knows_applyUpdates timeout clock hroom
  rw [Frame.tells, ← sup_assoc, ← h]
  refine Prod.ext (sup_bot_eq _).symm (Prod.ext (sup_bot_eq _).symm ?_)
  exact GCounter.slot_merge _ _

theorem tells_self (me : NodeId) (f : Frame) : (f.tells me).2.1 me = ⊥ := by
  have hone : ∀ u : MemberUpdate, (u.tells me).2.1 me = ⊥ := by
    intro u
    rw [MemberUpdate.tells]
    split
    · rfl
    · rename_i h
      exact update_of_ne (Ne.symm h) _ _
  have hall : ∀ us : List MemberUpdate, (joinAll (MemberUpdate.tells me) us).2.1 me = ⊥ := by
    intro us
    induction us with
    | nil => rfl
    | cons u us ih =>
      show (u.tells me).2.1 me ⊔ (joinAll (MemberUpdate.tells me) us).2.1 me = ⊥
      rw [hone, ih, sup_bot_eq]
  show (joinAll (MemberUpdate.tells me) f.updates).2.1 me ⊔ ⊥ = ⊥
  rw [hall, sup_bot_eq]

end Frames

end Pulsate.Cluster
