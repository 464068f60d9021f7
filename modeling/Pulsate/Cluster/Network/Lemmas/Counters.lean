import Mathlib.Algebra.BigOperators.Group.Finset.Piecewise
import Mathlib.Algebra.Order.BigOperators.Group.Finset
import Pulsate.Cluster.Network.Lemmas.Numbers

/-!
# Counters across a network

No counter, of a node or of a frame on its way, is ahead of what has been added, and a counter that was merged
is never lost again.
-/

namespace Pulsate.Cluster

open Pulsate.Lib List GCounter

/-! ## Slots -/

/-- The slot of a node. -/
def GCounter.count (c : GCounter) (n : NodeId) : Nat := (c.counts.get? n).getD 0

theorem GCounter.slot_eq_bot {c : GCounter} {n : NodeId} (h : c.slot n = ⊥) : c.count n = 0 := by
  cases hc : c.counts.get? n with
  | none => rw [count, hc, Option.getD_none]
  | some v => exact absurd ((slotAt_some hc).symm.trans h) WithBot.coe_ne_bot

theorem GCounter.slot_eq_coe {c : GCounter} {n : NodeId} {v : ℕ} (h : c.slot n = WithBot.some v) :
    c.count n = v := by
  cases hc : c.counts.get? n with
  | none => exact absurd (h.symm.trans (slotAt_none hc)) WithBot.coe_ne_bot
  | some w =>
    rw [count, hc, Option.getD_some]
    exact WithBot.coe_injective ((slotAt_some hc).symm.trans h)

theorem GCounter.count_merge (c d : GCounter) (n : NodeId) : (c.merge d).count n = max (c.count n) (d.count n) := by
  have hslot : (c.merge d).slot n = c.slot n ⊔ d.slot n := congrFun (slot_merge c d) n
  cases hc : c.slot n with
  | bot =>
    rw [hc, bot_sup_eq] at hslot
    rw [slot_eq_bot hc, Nat.zero_max]
    cases hd : d.slot n with
    | bot => rw [slot_eq_bot (hslot.trans hd), slot_eq_bot hd]
    | coe w => rw [slot_eq_coe (hslot.trans hd), slot_eq_coe hd]
  | coe v =>
    rw [slot_eq_coe hc]
    rw [hc] at hslot
    cases hd : d.slot n with
    | bot =>
      rw [hd, sup_bot_eq] at hslot
      rw [slot_eq_coe hslot, slot_eq_bot hd, Nat.max_zero]
    | coe w =>
      rw [hd, ← WithBot.coe_sup] at hslot
      have hmax : (c.merge d).count n = max v w := slot_eq_coe hslot
      rw [hmax, slot_eq_coe hd]

theorem GCounter.count_incr (c : GCounter) (node : NodeId) (k : Nat) (n : NodeId) :
    (c.incr node k).count n = if n = node then u64 (c.count node + k) else c.count n := by
  rw [count, incr, OrdMap.get?_alter]
  split
  · rfl
  · rfl

/-! ## What was added -/

/-- What an action adds at the nodes of `p`. -/
def Action.amount {ι : Type} (p : ι → Prop) [DecidablePred p] : Action ι → Nat
  | .event i (.incr n) => if p i then n else 0
  | _ => 0

/-- The node that acts. -/
def Action.node {ι : Type} : Action ι → ι
  | .event i _ => i
  | .resend i _ _ _ => i

namespace Network

variable {ι : Type} {as bs : List (Action ι)} {a : Action ι} {p q : ι → Prop} [DecidablePred p] [DecidablePred q]

/-- What the increments of a run at the nodes of `p` add up to. -/
def added (p : ι → Prop) [DecidablePred p] (as : List (Action ι)) : Nat := (as.map (Action.amount p)).sum

theorem added_append : added p (as ++ bs) = added p as + added p bs := by
  rw [added, map_append, sum_append]
  rfl

theorem added_concat : added p (as ++ [a]) = added p as + a.amount p := by
  rw [added_append]
  rfl

theorem amount_mono (h : ∀ i, p i → q i) : a.amount p ≤ a.amount q := by
  cases a with
  | resend i o dest frame => exact le_rfl
  | event i e =>
    cases e with
    | incr n =>
      by_cases hp : p i
      · simp only [Action.amount, if_pos hp, if_pos (h i hp), le_refl]
      · simp only [Action.amount, if_neg hp, Nat.zero_le]
    | _ => exact le_rfl

theorem added_mono (h : ∀ i, p i → q i) : added p as ≤ added q as := by
  induction as with
  | nil => exact le_rfl
  | cons a as ih => exact Nat.add_le_add (amount_mono h) ih

theorem added_eq_zero (h : ∀ i, ¬ p i) : added p as = 0 := by
  induction as with
  | nil => rfl
  | cons a as ih =>
    have hhead : a.amount p = 0 := by
      cases a with
      | resend i o dest frame => rfl
      | event i e =>
        cases e with
        | incr n => exact if_neg (h i)
        | _ => rfl
    show a.amount p + added p as = 0
    rw [hhead, ih]

theorem amount_eq_zero {i : ι} [DecidableEq ι] (h : ∀ n, a ≠ .event i (.incr n)) : a.amount (· = i) = 0 := by
  cases a with
  | resend j o dest frame => rfl
  | event j e =>
    cases e with
    | incr n =>
      have hj : j ≠ i := fun hj => h n (by rw [hj])
      simp only [Action.amount, if_neg hj]
    | _ => rfl

theorem added_split {id : ι → NodeId} (S : Finset NodeId) (hS : ∀ i n, .event i (.incr n) ∈ as → id i ∈ S) :
    added (fun _ => True) as = ∑ k ∈ S, added (fun i => id i = k) as := by
  induction as with
  | nil => exact (Finset.sum_const_zero).symm
  | cons a as ih =>
    have hrest := ih (fun i n h => hS i n (mem_cons_of_mem _ h))
    have hhead : a.amount (fun _ => True) = ∑ k ∈ S, a.amount (fun i => id i = k) := by
      cases a with
      | resend j o dest frame => exact (Finset.sum_const_zero).symm
      | event j e =>
        cases e with
        | incr n =>
          simp only [Action.amount, if_true]
          rw [Finset.sum_ite_eq, if_pos (hS j n mem_cons_self)]
        | _ => exact (Finset.sum_const_zero).symm
    show a.amount _ + added _ as = ∑ k ∈ S, (a.amount _ + added _ as)
    rw [Finset.sum_add_distrib, ← hhead, ← hrest]

end Network

/-! ## One step -/

theorem step_me (r : Runtime) (e : Event) : (r.step e).shared.me = r.shared.me := me_of_moves (step_moves r e)

namespace Network

variable {ι : Type} [DecidableEq ι] {net : Network ι} {as : List (Action ι)} {a : Action ι} {i : ι}

theorem step_node_me (net : Network ι) (a : Action ι) (i : ι) :
    ((net.step a).nodes i).shared.me = (net.nodes i).shared.me := by
  cases a with
  | resend j o dest frame => rfl
  | event j e =>
    by_cases hj : i = j
    · subst hj
      rw [step_event_self]
      exact Cluster.step_me _ _
    · rw [step_event_ne _ _ hj]

/-- An action leaves the counter of a node alone, unless it is an increment or a frame there. -/
theorem step_counter (net : Network ι) (a : Action ι) (i : ι) :
    (∃ n, a = .event i (.incr n) ∧ ((net.step a).nodes i).shared.counter =
      (net.nodes i).shared.counter.incr (net.nodes i).shared.me n) ∨
    (∃ o clock now f, a = .event i (.handle o clock now (some f)) ∧ f.version = protocolVersion ∧
      ((net.step a).nodes i).shared.counter = (net.nodes i).shared.counter.merge f.counter) ∨
    ((∀ n, a ≠ .event i (.incr n)) ∧ ((net.step a).nodes i).shared.counter = (net.nodes i).shared.counter) := by
  cases a with
  | resend j o dest frame => exact .inr (.inr ⟨nofun, rfl⟩)
  | event j e =>
    by_cases hj : i = j
    · subst hj
      rw [step_event_self]
      by_cases hincr : ∃ n, e = .incr n
      · obtain ⟨n, rfl⟩ := hincr
        exact .inl ⟨n, rfl, rfl⟩
      · have hne : ∀ n, Action.event i e ≠ .event i (.incr n) := fun n h => hincr ⟨n, (Action.event.inj h).2⟩
        by_cases hframe : ∃ o clock now f, e = .handle o clock now (some f)
        · obtain ⟨o, clock, now, f, rfl⟩ := hframe
          by_cases hv : f.version = protocolVersion
          · exact .inr (.inl ⟨o, clock, now, f, rfl, hv, handle_counter hv⟩)
          · refine .inr (.inr ⟨hne, ?_⟩)
            rw [Runtime.step, Runtime.react, handle_version hv]
        · refine .inr (.inr ⟨hne, step_counter_other _ _ (fun n h => hincr ⟨n, h⟩) ?_⟩)
          exact fun o clock now f h => hframe ⟨o, clock, now, f, h⟩
    · rw [step_event_ne _ _ hj]
      exact .inr (.inr ⟨fun n h => hj (Action.event.inj h).1.symm, rfl⟩)

/-! ## Whole runs -/

/-- A node's own slot is what was added there, and nothing is ahead of what was added. -/
structure Tally (id : ι → NodeId) (as : List (Action ι)) (net : Network ι) : Prop where
  me : ∀ i, (net.nodes i).shared.me = id i
  own : ∀ i, (net.nodes i).shared.counter.count (id i) = added (· = i) as
  node : ∀ i k, (net.nodes i).shared.counter.count k ≤ added (id · = k) as
  frame : ∀ x ∈ net.sent, x.2.version = protocolVersion ∧ ∀ k, x.2.counter.count k ≤ added (id · = k) as

variable {id : ι → NodeId} {listener : SocketAddr → Option ι}

theorem emits_counter {x : SocketAddr × Frame} (hx : x ∈ net.emits a) :
    x.2.version = protocolVersion ∧ x.2.counter = ((net.step a).nodes a.node).shared.counter := by
  cases a with
  | resend j o dest frame =>
    rw [mem_singleton.mp hx]
    exact ⟨rfl, rfl⟩
  | event j e =>
    obtain ⟨s, o, htaken, hcounter⟩ := (mem_react hx).taken
    rw [htaken]
    refine ⟨rfl, ?_⟩
    show s.counter = ((net.step (.event j e)).nodes j).shared.counter
    rw [step_event_self, hcounter]

theorem Tally.incr {n : Nat} (h : Tally id as net) (htotal : added (fun _ => True) (as ++ [.event i (.incr n)]) < 2 ^ 64)
    (k : NodeId) : ((net.nodes i).shared.counter.incr (net.nodes i).shared.me n).count k =
      if k = id i then added (· = i) as + n else (net.nodes i).shared.counter.count k := by
  have hsmall : added (· = i) as + n < 2 ^ 64 := by
    refine lt_of_le_of_lt ?_ htotal
    rw [added_concat]
    exact Nat.add_le_add (added_mono (fun _ _ => trivial)) (le_of_eq (by simp only [Action.amount, if_true]))
  rw [count_incr, h.me, h.own]
  split
  · exact Nat.mod_eq_of_lt hsmall
  · rfl

theorem added_id (hid : Function.Injective id) : added (fun j => id j = id i) as = added (· = i) as :=
  le_antisymm (added_mono (fun _ hj => hid hj)) (added_mono (fun _ hj => congrArg id hj))

theorem Tally.node_step (h : Tally id as net) (hok : net.Allows listener a)
    (htotal : added (fun _ => True) (as ++ [a]) < 2 ^ 64) (i : ι) (k : NodeId) :
    ((net.step a).nodes i).shared.counter.count k ≤ added (id · = k) (as ++ [a]) := by
  rw [added_concat]
  rcases step_counter net a i with ⟨n, rfl, hc⟩ | ⟨o, clock, now, f, rfl, -, hc⟩ | ⟨-, hc⟩
  · rw [hc, h.incr htotal]
    split
    · rename_i hk
      subst hk
      refine Nat.add_le_add (added_mono (fun j hj => congrArg id hj)) (le_of_eq ?_)
      simp only [Action.amount, if_true]
    · exact le_trans (h.node i k) (Nat.le_add_right _ _)
  · obtain ⟨addr, -, hmem⟩ := hok
    rw [hc, count_merge]
    exact le_trans (max_le (h.node i k) ((h.frame _ hmem).2 k)) (Nat.le_add_right _ _)
  · rw [hc]
    exact le_trans (h.node i k) (Nat.le_add_right _ _)

theorem Tally.own_step (hid : Function.Injective id) (h : Tally id as net) (hok : net.Allows listener a)
    (htotal : added (fun _ => True) (as ++ [a]) < 2 ^ 64) (i : ι) :
    ((net.step a).nodes i).shared.counter.count (id i) = added (· = i) (as ++ [a]) := by
  rw [added_concat]
  rcases step_counter net a i with ⟨n, rfl, hc⟩ | ⟨o, clock, now, f, rfl, -, hc⟩ | ⟨hne, hc⟩
  · rw [hc, h.incr htotal, if_pos rfl]
    simp only [Action.amount, if_true]
  · -- no frame knows more about a node than the node itself
    obtain ⟨addr, -, hmem⟩ := hok
    have hle := (h.frame _ hmem).2 (id i)
    rw [added_id hid] at hle
    rw [hc, count_merge, h.own, max_eq_left hle]
    rfl
  · rw [hc, h.own, amount_eq_zero hne, Nat.add_zero]

theorem tally_start (config : ι → Config) (id : ι → NodeId) (addr : ι → SocketAddr) (seed : ι → UInt64) :
    Tally id [] (start config id addr seed) :=
  ⟨fun _ => rfl, fun _ => rfl, fun _ _ => Nat.zero_le _, nofun⟩

omit [DecidableEq ι] in
theorem added_left_lt {bs : List (Action ι)} (h : added (fun _ => True) (as ++ bs) < 2 ^ 64) :
    added (fun _ => True) as < 2 ^ 64 := by
  rw [added_append] at h
  omega

theorem tally (hid : Function.Injective id) (hstart : Tally id [] net)
    (hok : Permits (Allows listener) Network.step net as) (htotal : added (fun _ => True) as < 2 ^ 64) :
    Tally id as (run Network.step net as) := by
  refine history_invariant (I := fun as net => added (fun _ => True) as < 2 ^ 64 → Tally id as net) (fun _ => hstart) ?_
    as hok htotal
  · intro as a hpermits ih htotal
    have hok := (permits_concat.mp hpermits).2
    have h : Tally id as (run Network.step net as) := ih (added_left_lt htotal)
    have hnode := h.node_step hok htotal
    refine ⟨fun i => (step_node_me _ a i).trans (h.me i), h.own_step hid hok htotal, hnode, fun x hx => ?_⟩
    rcases mem_append.mp hx with hx | hx
    · refine ⟨(h.frame x hx).1, fun k => le_trans ((h.frame x hx).2 k) ?_⟩
      rw [added_concat]
      exact Nat.le_add_right _ _
    · obtain ⟨hv, hc⟩ := emits_counter hx
      refine ⟨hv, fun k => ?_⟩
      rw [hc]
      exact hnode _ k

/-! ## Values -/

theorem counterValue_split (r : Runtime) {S : Finset NodeId} (hS : ∀ k ∈ r.shared.counter.counts.keys, k ∈ S) :
    r.counterValue = u64 (∑ k ∈ S, r.shared.counter.count k) := by
  rw [Runtime.counterValue, value, OrdMap.sum_values _ hS]
  rfl

/-- The identities a counter or a run names. -/
def named (id : ι → NodeId) (as : List (Action ι)) (c : GCounter) : Finset NodeId :=
  c.counts.keys.toFinset ∪ (as.map (fun a => id a.node)).toFinset

omit [DecidableEq ι] in
theorem counterValue_named (id : ι → NodeId) (as : List (Action ι)) (r : Runtime) :
    r.counterValue = u64 (∑ k ∈ named id as r.shared.counter, r.shared.counter.count k) :=
  counterValue_split r (fun _ hk => Finset.mem_union_left _ (mem_toFinset.mpr hk))

omit [DecidableEq ι] in
theorem added_named (id : ι → NodeId) (as : List (Action ι)) (c : GCounter) :
    added (fun _ => True) as = ∑ k ∈ named id as c, added (id · = k) as :=
  added_split _ (fun _ _ h => Finset.mem_union_right _ (mem_toFinset.mpr (mem_map.mpr ⟨_, h, rfl⟩)))

theorem Tally.counterValue_le (h : Tally id as net) (m : ι) : (net.nodes m).counterValue ≤ added (fun _ => True) as := by
  rw [counterValue_named id as, added_named id as (net.nodes m).shared.counter]
  exact le_trans (Nat.mod_le _ _) (Finset.sum_le_sum (fun k _ => h.node m k))

theorem Tally.counterValue_eq (h : Tally id as net) (hid : Function.Injective id) (htotal : added (fun _ => True) as < 2 ^ 64) (m : ι)
    (hm : ∀ n, added (· = n) as ≤ (net.nodes m).shared.counter.count (id n)) :
    (net.nodes m).counterValue = added (fun _ => True) as := by
  have hslot : ∀ k, (net.nodes m).shared.counter.count k = added (id · = k) as := by
    intro k
    refine le_antisymm (h.node m k) ?_
    by_cases hk : ∃ n, id n = k
    · obtain ⟨n, rfl⟩ := hk
      rw [added_id hid]
      exact hm n
    · rw [added_eq_zero (fun i hi => hk ⟨i, hi⟩)]
      exact Nat.zero_le _
  rw [counterValue_named id as, Finset.sum_congr rfl (fun k _ => hslot k), ← added_named]
  exact Nat.mod_eq_of_lt htotal

/-! ## Merged states -/

/-- Node `m` has merged, after the run, the state that node `n` had after `past`: it is `n` itself, or it has received
a frame of a node that had merged it. -/
inductive Merged (net : Network ι) (n : ι) (past : List (Action ι)) : List (Action ι) → ι → Prop
  | own : Merged net n past past n
  | later {as : List (Action ι)} {m : ι} (a : Action ι) (h : Merged net n past as m) : Merged net n past (as ++ [a]) m
  | received {as₁ as₂ : List (Action ι)} {b : Action ι} {m : ι} {x : SocketAddr × Frame} (o : HashOrder)
      (clock : Nat → Instant) (now : Instant) (h : Merged net n past (as₁ ++ [b]) b.node)
      (hx : x ∈ (run Network.step net as₁).emits b) :
      Merged net n past (as₁ ++ b :: as₂ ++ [.event m (.handle o clock now (some x.2))]) m

theorem Tally.count_le_step (h : Tally id as net) (htotal : added (fun _ => True) (as ++ [a]) < 2 ^ 64) (i : ι) (k : NodeId) :
    (net.nodes i).shared.counter.count k ≤ ((net.step a).nodes i).shared.counter.count k := by
  rcases step_counter net a i with ⟨n, rfl, hc⟩ | ⟨o, clock, now, f, rfl, -, hc⟩ | ⟨-, hc⟩
  · rw [hc, h.incr htotal]
    split
    · rename_i hk
      rw [hk, h.own]
      exact Nat.le_add_right _ _
    · exact le_rfl
  · rw [hc, count_merge]
    exact le_max_left _ _
  · rw [hc]

theorem Merged.added_le {n m : ι} {past : List (Action ι)} (h : Merged net n past as m) (hid : Function.Injective id)
    (hstart : Tally id [] net) (hok : Permits (Allows listener) Network.step net as)
    (htotal : added (fun _ => True) as < 2 ^ 64) :
    added (· = n) past ≤ ((run Network.step net as).nodes m).shared.counter.count (id n) := by
  induction h with
  | own => exact ((tally hid hstart hok htotal).own n).ge
  | later a _ ih =>
    have hok' := (permits_concat.mp hok).1
    have htotal' := added_left_lt htotal
    rw [run_concat]
    exact le_trans (ih hok' htotal') ((tally hid hstart hok' htotal').count_le_step htotal _ _)
  | @received as₁ as₂ b m x o clock now _ hx ih =>
    have hsplit : as₁ ++ b :: as₂ = (as₁ ++ [b]) ++ as₂ := by simp
    have hsent : ((run Network.step net as₁).step b).nodes b.node = (run Network.step net (as₁ ++ [b])).nodes b.node := by
      rw [run_concat]
    obtain ⟨hv, hc⟩ := emits_counter hx
    rw [hsplit] at hok htotal ⊢
    have hle := ih (permits_append.mp (permits_concat.mp hok).1).1 (added_left_lt (added_left_lt htotal))
    rw [run_concat, step_event_self]
    show _ ≤ count (Runtime.handle _ o clock now (some x.2)).1.shared.counter (id n)
    rw [handle_counter hv, count_merge, hc, hsent]
    exact le_trans hle (le_max_right _ _)

end Network

end Pulsate.Cluster
