import Pulsate.Cluster.Lemmas.Counter
import Pulsate.Cluster.Lemmas.Snapshot
import Pulsate.Cluster.Lemmas.Suspicion
import Pulsate.Cluster.Lemmas.Tombstone

/-!
# Results about a gossip node
-/

namespace Pulsate.Cluster

open Pulsate.Lib List Shared Pulsate.Cluster.Runtime

/-! ## The view invariant -/

/-- In every reachable state the membership set and the peer map agree, and every frame that goes out
from it names each node at most once and this node as alive at its current incarnation. -/
theorem gossip_view_invariant (config : Config) (me : NodeId) (addr : SocketAddr) (seed : UInt64)
    (es : List Event) :
    ViewInv me (run step (new config me addr seed) es).shared ∧
    ∀ e, ∀ x ∈ ((run step (new config me addr seed) es).react e).2,
      (x.2.updates.map MemberUpdate.node).Nodup ∧
      (∃ u ∈ x.2.updates, u.node = me) ∧
      ∀ u ∈ x.2.updates, u.node = me → u.state = .alive ∧
        u.incarnation =
          ((run step (new config me addr seed) es).step e).shared.incarnation := by
  have hv := ViewInv.run config me addr seed es
  refine ⟨hv, fun e x hx => ?_⟩
  obtain ⟨s, o, seq, kind, hm, hi, hf⟩ := (react_reaches _ e).sent x hx
  have hs := hv.moves hm
  obtain ⟨hnd, halive⟩ := hs.snapshot o seq kind
  rw [hf]
  refine ⟨hnd, ⟨_, mem_cons_self, hs.me_eq⟩, fun u hu hn => ?_⟩
  obtain ⟨ha, hinc⟩ := halive u hu hn
  exact ⟨ha, hinc.trans hi⟩

/-! ## Tombstones -/

/-- Once a peer is recorded dead at incarnation `k`, no later state forgets it or has it alive again at
`k` or below; and no recorded incarnation ever falls. -/
theorem dead_tombstones_hold (config : Config) (me : NodeId) (addr : SocketAddr) (seed : UInt64)
    (es fs : List Event) :
    let r := run step (new config me addr seed) es
    let r' := run step r fs
    (∀ n p, r.shared.peers.get? n = some p → p.state = .dead →
      ∃ q, r'.shared.peers.get? n = some q ∧
        ((q.state = .dead ∧ q.incarnation = p.incarnation) ∨ p.incarnation < q.incarnation)) ∧
    (∀ n p, r.shared.peers.get? n = some p →
      ∃ q, r'.shared.peers.get? n = some q ∧ p.incarnation ≤ q.incarnation) := by
  intro r r'
  have hk : Keeps r.shared r'.shared := run_keeps r fs
  constructor
  · intro n p hp hd
    obtain ⟨q, hq, hadv⟩ := hk n p hp
    refine ⟨q, hq, ?_⟩
    rcases hadv with h | ⟨h, hst⟩
    · exact .inr h
    · exact .inl ⟨hst hd, h.symm⟩
  · intro n p hp
    obtain ⟨q, hq, hadv⟩ := hk n p hp
    exact ⟨q, hq, hadv.le⟩

/-- A frame from `b` that reports `c` in the given state. -/
def reportOf (incarnation : Nat) (state : MemberState) : Event :=
  let addr := SocketAddr.v4 0 7946
  .handle HashOrder.byKey (fun _ => 0) 0 (some
    ⟨protocolVersion, "b", addr, 1, .ack, [⟨"c", addr, incarnation, state⟩], GCounter.new⟩)

/-- A peer reported dead stays so when its old life is reported again. -/
theorem dead_tombstones_hold_stale_report :
    ∃ q, (run step (run step
        (new ⟨[], 3, 30, 3, 3⟩ "a" (.v4 1 7946) 5) [reportOf 4 .dead])
          [reportOf 4 .alive]).shared.peers.get? "c" = some q ∧
      ((q.state = .dead ∧ q.incarnation = 4) ∨ 4 < q.incarnation) :=
  (dead_tombstones_hold ⟨[], 3, 30, 3, 3⟩ "a" (.v4 1 7946) 5 [reportOf 4 .dead]
    [reportOf 4 .alive]).1 "c" ⟨.v4 0 7946, 4, .dead, none⟩ (by decide) rfl

/-! ## Suspicion -/

theorem told_of_reconcile {r : Runtime} {es : List Event} {o : HashOrder} {clock : Nat → Instant} {now : Instant} {f : Frame}
    {node : NodeId} {q : Peer} (hv : f.version = protocolVersion)
    (hbefore : (run step r es).shared.peers.get? node ≠ some q)
    (hafter : ((run step r es).shared.reconcile (run step r es).config.suspicionTimeout
      clock f).1.peers.get? node = some q) : r.Cause es node q (.handle o clock now (some f)) := by
  obtain ⟨us, u, vs, hupdates, hnode, hu, hinc, hsup⟩ := get?_applyUpdates hafter hbefore
  rw [run_config] at hsup
  exact .told hv hupdates hnode hu hinc hsup

/-- Along every run, a record that becomes suspect or dead does so because a probe of the peer has gone unanswered
for two timeouts, because the peer has been suspect for the whole suspicion timeout, or because an update says so. -/
theorem suspicion_has_cause (config : Config) (me : NodeId) (addr : SocketAddr) (seed : UInt64) (es : List Event)
    (e : Event) (hloop : ∀ x ∈ es ++ [e], x.OfLoop) (node : NodeId) (q : Peer)
    (hbefore : (run step (new config me addr seed) es).shared.peers.get? node ≠ some q)
    (hafter : (run step (new config me addr seed) (es ++ [e])).shared.peers.get? node = some q)
    (hstate : q.state ≠ .alive) : (new config me addr seed).Cause es node q e := by
  rw [run_concat] at hafter
  have hes : ∀ x ∈ es, x.OfLoop := fun x hx => hloop x (mem_append_left _ hx)
  have hlast : e.OfLoop := hloop e mem_concat_self
  have hturns := turns (run step (new config me addr seed) es) e
  generalize step _ e = r' at hafter hturns
  cases hturns with
  | suspected hp hdue hphase =>
    rcases get?_markSuspect hafter with hold | ⟨htarget, -, hsuspect, peer, hpeer, halive⟩
    · exact absurd hold hbefore
    · obtain ⟨start, hsince, htime⟩ := dated_run rfl hp
      rw [hphase] at htime
      exact .unanswered hpeer halive hsuspect hp htarget hsince (htime.trans hdue)
  | reaped =>
    -- the record that is due has been suspect since its deadline was set
    rcases get?_reapSuspects hafter with hold | ⟨p, deadline, hp, hsuspect, hdeadline, hdue, hdead, hinc⟩
    · exact absurd hold hbefore
    · obtain ⟨since, hset, hsince⟩ := backed_run hes rfl node p hp hsuspect
      obtain rfl := Option.some.inj (hdeadline.symm.trans hset)
      exact .outlasted hdead (hinc ▸ hsince) hdue
  | heard hv => exact told_of_reconcile hv hbefore hafter
  | acked hv => exact told_of_reconcile hv hbefore ((get?_markAlive hafter).resolve_right hstate)
  | markedSuspect => exact hlast.elim
  | markedAlive => exact hlast.elim
  | _ => exact absurd hafter hbefore

/-- A peer is heard of, probed, asked after and suspected. -/
def silentPeer : List Event :=
  [reportOf 4 .alive, .startProbe .byKey 10, .advanceProbe .byKey 13]

theorem suspicion_has_cause_silent :
    (new ⟨[], 3, 30, 3, 3⟩ "a" (.v4 1 7946) 5).Cause silentPeer "c" ⟨.v4 0 7946, 4, .suspect, some 46⟩
      (.advanceProbe .byKey 16) :=
  suspicion_has_cause ⟨[], 3, 30, 3, 3⟩ "a" (.v4 1 7946) 5 silentPeer (.advanceProbe .byKey 16)
    (by
      intro x hx
      simp only [silentPeer, mem_append, mem_cons, not_mem_nil, or_false] at hx
      rcases hx with (rfl | rfl | rfl) | rfl <;> trivial)
    "c" ⟨.v4 0 7946, 4, .suspect, some 46⟩ (by decide +kernel) (by decide +kernel) nofun

/-! ## Reconciliation -/

/-- Two deliveries of the same reports leave every peer at the same incarnation and in the same state, the same
members, the same own incarnation and the same counter. A state that keeps `ViewInv` is `Tracked`. -/
theorem reconcile_order_free {s : Shared} (hs : s.Tracked) {timeout timeout' : Nat}
    {ds es : List ((Nat → Instant) × Frame)} (h : Redelivered (ds.map Prod.snd) (es.map Prod.snd))
    (hroom : ∀ d ∈ ds, ∀ u ∈ d.2.updates, u.incarnation < 2 ^ 64 - 1) :
    (∀ n, ((s.deliver timeout ds).peers.get? n).map (fun p => (p.incarnation, p.state)) =
      ((s.deliver timeout' es).peers.get? n).map (fun p => (p.incarnation, p.state))) ∧
    (s.deliver timeout ds).membership.nodes = (s.deliver timeout' es).membership.nodes ∧
    (s.deliver timeout ds).incarnation = (s.deliver timeout' es).incarnation ∧
    (s.deliver timeout ds).counter = (s.deliver timeout' es).counter := by
  have hroom' : ∀ e ∈ es, e.2.HasRoom := by
    rw [← forall_mem_map (P := Frame.HasRoom), ← h.hasRoom, forall_mem_map]
    exact hroom
  have hknows : (s.deliver timeout ds).knows = (s.deliver timeout' es).knows := by
    rw [knows_deliver hroom, knows_deliver hroom', h.tells]
  obtain ⟨hinc, hrest⟩ := Prod.mk.inj hknows
  obtain ⟨hrecord, hslot⟩ := Prod.mk.inj hrest
  have hfollows := Follows.refl hs
  exact ⟨fun n => entry_of_record (congrFun hrecord n),
    (hfollows.deliver hs timeout ds).nodes_eq (hfollows.deliver hs timeout' es) hrecord, hinc, GCounter.ext_slot hslot⟩

/-- A ping from `b` with a report of `c`. -/
def reportFrame (incarnation : Nat) (state : MemberState) : Frame :=
  ⟨protocolVersion, "b", .v4 0 7946, 1, .ping, [⟨"c", .v4 0 7947, incarnation, state⟩], GCounter.new⟩

/-- A report that `c` is dead and one that it is alive again, told in either order. -/
theorem reconcile_order_free_two :
    ((Shared.new "a" (.v4 1 7946)).deliver 30
        [(fun _ => 0, reportFrame 4 .dead), (fun _ => 1, reportFrame 5 .alive)]).membership.nodes =
      ((Shared.new "a" (.v4 1 7946)).deliver 30
        [(fun _ => 7, reportFrame 5 .alive), (fun _ => 9, reportFrame 4 .dead)]).membership.nodes := by
  have h : Redelivered [reportFrame 4 .dead, reportFrame 5 .alive] [reportFrame 5 .alive, reportFrame 4 .dead] :=
    .perm (.swap _ _ _)
  exact (@reconcile_order_free _ (ViewInv.init "a" (.v4 1 7946)).tracked 30 30 [(fun _ => 0, reportFrame 4 .dead), (fun _ => 1, reportFrame 5 .alive)]
    [(fun _ => 7, reportFrame 5 .alive), (fun _ => 9, reportFrame 4 .dead)] h (by decide)).2.1

/-- Two nodes whose views have come apart agree again after three snapshots, whatever each held of the other, if neither of the last
two completes a probe of a third node. -/
theorem pairwise_convergence {a b : NodeId} (hab : a ≠ b) {ra rb : Runtime} (ha : ViewInv a ra.shared) (hb : ViewInv b rb.shared)
    (hra : ra.shared.HasRoom) (hrb : rb.shared.HasRoom) (h₁ h₂ h₃ : Hearing) :
    let ra₁ := ra.hears rb h₁
    let rb₁ := rb.hears ra₁ h₂
    let ra₂ := ra₁.hears rb₁ h₃
    (∀ n, n ≠ a → n ≠ b → ¬ rb.Completes h₂ n ∧ ¬ ra₁.Completes h₃ n) →
      ra₂.shared.membership.nodes = rb₁.shared.membership.nodes ∧ a ∈ ra₂.shared.membership.nodes ∧
      b ∈ ra₂.shared.membership.nodes ∧ ra₂.shared.membership.leader = rb₁.shared.membership.leader ∧
      (∀ n, n ≠ a → n ≠ b → (ra₂.shared.peers.get? n).map (fun p => (p.incarnation, p.state)) =
        (rb₁.shared.peers.get? n).map (fun p => (p.incarnation, p.state))) ∧
      ra₂.shared.counter = rb₁.shared.counter := by
  intro ra₁ rb₁ ra₂ hquiet
  have ha₁ : ViewInv a ra₁.shared := hears_view ha rb h₁
  have hi₁ : ra₁.shared.incarnation = ra.shared.incarnation ⊔ rb.shared.refutation a :=
    hears_incarnation ha hb hab (fun p hp _ => hrb.peers a p hp) h₁
  have hroom : ∀ p, ra₁.shared.peers.get? b = some p → p.state ≠ .alive → p.incarnation < 2 ^ 64 - 1 :=
    fun p hp hs => hears_room ha hb hab hra hrb h₁ hp hs
  have hb₁ : ViewInv b rb₁.shared := hears_view hb ra₁ h₂
  have heard : Heard rb.shared ra₁.shared rb₁.shared :=
    hears_heard hb ha₁ hab.symm hroom (by rw [hi₁]; exact le_sup_right) (fun n hnb hna => (hquiet n hna hnb).1)
  -- the first node has refuted what the second held against it
  obtain ⟨i, hi⟩ : ∃ i, rb₁.shared.record a = recordOf i .alive :=
    ha₁.me_eq ▸ heard.alive (by rw [ha₁.me_eq, hb.me_eq]; exact hab) (by rw [hi₁, ha₁.me_eq]; exact le_sup_right)
  have hgone : ∀ p, rb₁.shared.peers.get? a = some p → p.state ≠ .alive → p.incarnation < 2 ^ 64 - 1 := by
    intro p hp hs
    rw [record_some hp] at hi
    exact absurd (recordOf_inj hi).2 hs
  have hrefuted : ra₁.shared.refutation b ≤ rb₁.shared.incarnation := by
    rw [heard.incarnation, hb.me_eq]
    exact le_sup_right
  have ha₂ : ViewInv a ra₂.shared := hears_view ha₁ rb₁ h₃
  have heard' : Heard ra₁.shared rb₁.shared ra₂.shared :=
    hears_heard ha₁ hb₁ hab hgone hrefuted (fun n hna hnb => (hquiet n hna hnb).2)
  obtain ⟨j, hj⟩ : ∃ j, ra₂.shared.record b = recordOf j .alive :=
    hb₁.me_eq ▸ heard'.alive (by rw [ha₁.me_eq, hb₁.me_eq]; exact hab.symm) (by rw [hb₁.me_eq]; exact hrefuted)
  have hthird : ∀ n, n ≠ a → n ≠ b → ra₂.shared.record n = rb₁.shared.record n := fun n hna hnb =>
    record_agrees heard heard' (by rw [ha₁.me_eq]; exact hna) (by rw [hb.me_eq]; exact hnb) (by rw [hb₁.me_eq]; exact hnb)
  have hnodes := nodes_agree ha₂ hb₁ hi hj hthird
  refine ⟨hnodes, ha₂.mem_iff.mpr (.inl rfl), ha₂.mem_of_alive hj, ?_,
    fun n hna hnb => entry_of_record (hthird n hna hnb), counter_agrees heard heard'⟩
  rw [Membership.leader, Membership.leader, Membership.members, Membership.members, hnodes]

theorem hasRoom_of_entries {s : Shared} (hself : s.incarnation < 2 ^ 64 - 1)
    (h : ∀ e ∈ s.peers.entries, e.2.incarnation < 2 ^ 64 - 1) : s.HasRoom :=
  ⟨hself, fun _ _ hp => h _ (OrdMap.mem_entries_iff.mpr hp)⟩

/-- The node after these events. -/
def nodeAfter (me : NodeId) (es : List Event) : Runtime := run step (new ⟨[], 3, 30, 3, 3⟩ me (.v4 1 7946) 5) es

theorem nodeAfter_view (me : NodeId) (es : List Event) : ViewInv me (nodeAfter me es).shared := ViewInv.run _ me _ 5 es

/-- A snapshot as a ping, or as an ack with this number. -/
def heardAs (seq : UInt64) (kind : Kind) : Hearing := ⟨.byKey, seq, kind, .byKey, fun _ => 20, 20⟩

/-- Both hold `c` suspect, and the first has asked after it. -/
def asking : Runtime := nodeAfter "a" [reportOf 4 .alive, .startProbe .byKey 10, reportOf 4 .suspect]

def told : Runtime := nodeAfter "b" [reportOf 4 .suspect]

/-- A snapshot of the second that answers the probe has the first take `c` for alive again, on its own. -/
theorem probe_parts_views : ViewInv "a" asking.shared ∧ ViewInv "b" told.shared ∧ asking.shared.HasRoom ∧ told.shared.HasRoom ∧
    let ra₁ := asking.hears told (heardAs 1 .ping)
    let rb₁ := told.hears ra₁ (heardAs 2 .ping)
    let ra₂ := ra₁.hears rb₁ (heardAs ((ra₁.probe.map (·.seq)).getD 0) .ack)
    (ra₂.shared.peers.get? "c").map (fun p => (p.incarnation, p.state)) = some (4, .alive) ∧
      (rb₁.shared.peers.get? "c").map (fun p => (p.incarnation, p.state)) = some (4, .suspect) :=
  ⟨nodeAfter_view _ _, nodeAfter_view _ _, hasRoom_of_entries (by decide +kernel) (by decide +kernel),
    hasRoom_of_entries (by decide) (by decide), by decide +kernel⟩

/-- The first holds the second dead, the second holds `c` suspect. -/
def parted : Runtime := nodeAfter "a" [.handle .byKey (fun _ => 0) 0 (some
  ⟨protocolVersion, "c", .v4 0 7946, 1, .ping, [⟨"b", .v4 2 7946, 7, .dead⟩, ⟨"c", .v4 0 7946, 4, .alive⟩], GCounter.new⟩)]

theorem pairwise_convergence_parted :
    let ra₁ := parted.hears told (heardAs 1 .ping)
    let rb₁ := told.hears ra₁ (heardAs 2 .ack)
    let ra₂ := ra₁.hears rb₁ (heardAs 3 .ack)
    ra₂.shared.membership.nodes = rb₁.shared.membership.nodes ∧ "b".toList ∈ ra₂.shared.membership.nodes := by
  have hidle : told.probe = none ∧ (parted.hears told (heardAs 1 .ping)).probe = none := by decide
  have h := @pairwise_convergence "a" "b" (by decide) parted told (nodeAfter_view _ _) (nodeAfter_view _ _)
    (hasRoom_of_entries (by decide) (by decide)) (hasRoom_of_entries (by decide) (by decide))
    (heardAs 1 .ping) (heardAs 2 .ack) (heardAs 3 .ack)
    (fun n _ _ => ⟨fun ⟨_, p, hp, _⟩ => Option.not_mem_none p (hidle.1 ▸ hp), fun ⟨_, p, hp, _⟩ => Option.not_mem_none p (hidle.2 ▸ hp)⟩)
  obtain ⟨hnodes, -, hmem, -⟩ := h
  exact ⟨hnodes, hmem⟩

/-! ## Self-refutation -/

/-- A peer that holds an accusation of the frame takes the next snapshot of the accused for later. -/
def Overrides (s' : Shared) (u : MemberUpdate) : Prop :=
  ∀ (t : Shared) (p : Peer) (timeout : Nat) (clock : Nat → Instant) (o : HashOrder) (seq : UInt64) (kind : Kind),
    t.me ≠ s'.me → t.peers.get? s'.me = some p → p.incarnation = u.incarnation →
      ∃ q, (t.reconcile timeout clock (s'.snapshot o seq kind)).1.peers.get? s'.me = some q ∧
        q.incarnation = s'.incarnation ∧ q.state = .alive

theorem overrides_of_lt {s' : Shared} {u : MemberUpdate} (hnot : s'.peers.get? s'.me = none)
    (hlt : u.incarnation < s'.incarnation) : Overrides s' u := by
  intro t p timeout clock o seq kind hne hp hi
  refine exists_of_record (snapshot_overrides hnot hne.symm ?_ timeout clock o seq kind)
  rw [record_some hp, Peer.record, recordOf_lt, hi]
  exact .inl hlt

theorem runtime_overflows_iff {r : Runtime} {clock : Nat → Instant} {now : Instant} {f : Frame} (hv : f.version = protocolVersion)
    (hroom : ∀ u ∈ f.updates, u.Accuses r.shared.me → u.incarnation + 1 < 2 ^ 64) :
    r.overflows clock now f = false ↔ r.shared.InTime r.config.suspicionTimeout clock f.updates ∧
      ∀ target, f.kind = .pingReq target → now + r.config.probeTimeout * 2 < instantEnd := by
  rw [Runtime.overflows, beq_iff_eq.mpr hv, Bool.true_and, Bool.or_eq_false_iff, overflows_iff hroom]
  refine and_congr_right (fun _ => ?_)
  cases f.kind <;> simp

/-- A frame leaves this node at no lower incarnation, without a panic, above every accusation it makes and with a snapshot
that overrides them, exactly if each accusation is below the incarnation already or the frame is of the node's version and
leaves a successor, and a frame of that version sets no deadline that an `Instant` does not reach. -/
theorem refutation_wins_iff (r : Runtime) (o : HashOrder) (clock : Nat → Instant) (now : Instant) (f : Frame)
    (hr : r.shared.incarnation < 2 ^ 64) :
    (r.shared.incarnation ≤ (r.handle o clock now (some f)).1.shared.incarnation ∧ r.overflows clock now f = false ∧
      (∀ u ∈ f.updates, u.Accuses r.shared.me →
        u.incarnation < (r.handle o clock now (some f)).1.shared.incarnation) ∧
      (r.shared.peers.get? r.shared.me = none → ∀ u ∈ f.updates, u.Accuses r.shared.me →
        Overrides (r.handle o clock now (some f)).1.shared u)) ↔
    (∀ u ∈ f.updates, u.Accuses r.shared.me →
      u.incarnation < r.shared.incarnation ∨ (f.version = protocolVersion ∧ u.incarnation < 2 ^ 64 - 1)) ∧
    (f.version = protocolVersion → r.shared.InTime r.config.suspicionTimeout clock f.updates ∧
      ∀ target, f.kind = .pingReq target → now + r.config.probeTimeout * 2 < instantEnd) := by
  by_cases hv : f.version = protocolVersion
  · constructor
    · rintro ⟨-, hno, hall, -⟩
      have hroom : ∀ u ∈ f.updates, u.Accuses r.shared.me → u.incarnation < 2 ^ 64 - 1 := by
        intro u hu ha
        have hlt : (r.shared.reconcile r.config.suspicionTimeout clock f).1.incarnation < 2 ^ 64 :=
          applyUpdates_incarnation_lt hr
        have := hall u hu ha
        rw [handle_incarnation hv] at this
        omega
      refine ⟨fun u hu ha => .inr ⟨hv, hroom u hu ha⟩, fun _ => (runtime_overflows_iff hv ?_).mp hno⟩
      exact fun u hu ha => by have := hroom u hu ha; omega
    · rintro ⟨h, htime⟩
      have hroom : ∀ u ∈ f.updates, u.Accuses r.shared.me → u.incarnation + 1 < 2 ^ 64 := by
        intro u hu ha
        rcases h u hu ha with hlt | ⟨-, hlt⟩
        · omega
        · omega
      obtain ⟨hle, hall⟩ := @reconcile_outlives r.shared r.config.suspicionTimeout clock f hroom
      rw [← @handle_incarnation r o clock now f hv] at hle hall
      refine ⟨hle, ?_, hall, fun hnot u hu ha => overrides_of_lt ?_ (hall u hu ha)⟩
      · exact (runtime_overflows_iff hv hroom).mpr (htime hv)
      · rw [handle_me]
        exact handle_self hv hnot
  · have hno : r.overflows clock now f = false := by
      rw [Runtime.overflows, beq_eq_false_iff_ne.mpr hv, Bool.false_and]
    rw [handle_version hv]
    refine ⟨fun h => ⟨fun u hu ha => .inl (h.2.2.1 u hu ha), (absurd · hv)⟩, fun ⟨h, _⟩ => ?_⟩
    have hall : ∀ u ∈ f.updates, u.Accuses r.shared.me → u.incarnation < r.shared.incarnation := by
      intro u hu ha
      rcases h u hu ha with hlt | ⟨hc, -⟩
      · exact hlt
      · exact absurd hc hv
    exact ⟨le_rfl, hno, hall, fun hnot u hu ha => overrides_of_lt hnot (hall u hu ha)⟩

/-- A ping from `b` that reports `a` dead. -/
def accusation (incarnation : Nat) : Frame :=
  ⟨protocolVersion, "b", .v4 0 7946, 1, .ping, [⟨"a", .v4 1 7946, incarnation, .dead⟩], GCounter.new⟩

/-- The node `a` after it was reported dead at its fifth incarnation. -/
def accused : Runtime :=
  ((new ⟨[], 3, 30, 3, 3⟩ "a" (.v4 1 7946) 5).handle .byKey (fun _ => 0) 0 (some (accusation 4))).1

/-- An accusation at the last incarnation sends a node back to its first one. -/
theorem refutation_lost :
    accused.shared.incarnation = 5 ∧
      (accused.handle .byKey (fun _ => 0) 0 (some (accusation (2 ^ 64 - 1)))).1.shared.incarnation = 0 ∧
      accused.overflows (fun _ => 0) 0 (accusation (2 ^ 64 - 1)) := by decide

/-- A request to probe another node, with an accusation and a suspicion. -/
def mixedFrame : Frame :=
  ⟨protocolVersion, "b", .v4 0 7946, 1, .pingReq (.v4 3 7946), [⟨"a", .v4 1 7946, 5, .dead⟩, ⟨"c", .v4 0 7946, 4, .suspect⟩],
    GCounter.new⟩

theorem refutation_wins_iff_five : 5 < (accused.handle .byKey (fun _ => 9) 9 (some mixedFrame)).1.shared.incarnation ∧
    accused.overflows (fun _ => 9) 9 mixedFrame = false := by
  have htime : 9 + accused.config.suspicionTimeout < instantEnd := by decide
  have h := (refutation_wins_iff accused .byKey (fun _ => 9) 9 mixedFrame (by decide)).mpr
    ⟨by decide, fun _ => ⟨fun _ _ _ _ _ _ _ _ => htime, fun _ _ => by decide⟩⟩
  exact ⟨h.2.2.1 _ mem_cons_self (by decide), h.2.1⟩

/-! ## The reported value -/

/-- The value a node reports never falls along a run exactly if no event raises the slots past the end of a word:
what it adds, short of whole words, fits above the value reported before it. -/
theorem counterValue_grows_iff (r : Runtime) (es : List Event) :
    (∀ before after rest, es = before ++ after ++ rest →
      (run step r before).counterValue ≤ (run step r (before ++ after)).counterValue) ↔
    ∀ before e rest, es = before ++ e :: rest →
      (run step r before).counterValue + (run step r before).gain e % 2 ^ 64 < 2 ^ 64 := by
  have hlt : ∀ r : Runtime, r.counterValue < 2 ^ 64 := fun r => Nat.mod_lt _ (by decide)
  constructor
  · intro h before e rest he
    have hle := h before [e] rest (by rw [he, append_assoc]; rfl)
    rw [run_append, run_cons, run_nil, counterValue_step, le_u64_add (hlt _)] at hle
    exact hle
  · intro h before after rest he
    induction after using List.reverseRecOn generalizing rest with
    | nil => rw [append_nil]
    | append_singleton after e ih =>
      have hstep := h (before ++ after) e rest (by rw [he]; simp only [append_assoc, singleton_append])
      rw [← le_u64_add (hlt _), ← counterValue_step] at hstep
      refine (ih (e :: rest) (by rw [he]; simp only [append_assoc, singleton_append])).trans ?_
      rw [← append_assoc, run_append step r (before ++ after) [e], run_cons, run_nil]
      exact hstep

/-- A peer's slot and one increment of this node's own take the reported value back to zero. -/
theorem counterValue_falls :
    (run step (new ⟨[], 3, 30, 3, 3⟩ "a" (.v4 1 7946) 5) [.handle .byKey (fun _ => 0) 0 (some
      ⟨protocolVersion, "b", .v4 0 7946, 1, .ping, [], GCounter.new.incr "b" (2 ^ 64 - 1)⟩)]).counterValue = 2 ^ 64 - 1 ∧
    (run step (new ⟨[], 3, 30, 3, 3⟩ "a" (.v4 1 7946) 5) [.handle .byKey (fun _ => 0) 0 (some
      ⟨protocolVersion, "b", .v4 0 7946, 1, .ping, [], GCounter.new.incr "b" (2 ^ 64 - 1)⟩), .incr 1]).counterValue = 0 := by
  decide

end Pulsate.Cluster
