import Pulsate.Cluster.Network.Lemmas.Counters
import Pulsate.Cluster.Network.Lemmas.Probe

/-!
# Results about a network of gossip nodes
-/

namespace Pulsate.Cluster

open Pulsate.Lib List Network

variable {ι : Type} [DecidableEq ι]

/-! ## Failure detection -/

/-- Only an ack with the number of the probe completes it, and then the probe was answered: after the step that began
it, the node that listens at the address it was sent to has answered a ping with the number. No other step of the run,
of any node, took that number. -/
theorem probe_sound (listener : SocketAddr → Option ι) (config : ι → Config) (id : ι → NodeId) (addr : ι → SocketAddr)
    (seed : ι → UInt64) (as : List (Action ι)) (i : ι) (o : HashOrder) (clock : Nat → Instant) (now : Instant)
    (d : Option Frame) (p : Probe)
    (hrun : Permits (Allows listener) step (start config id addr seed)
      (as ++ [.event i (.handle o clock now d)]))
    (hfresh : (start config id addr seed).FreshNumbers as)
    (hprobe : ((run step (start config id addr seed) as).nodes i).probe = some p)
    (hdone : (((run step (start config id addr seed) as).nodes i).step
      (.handle o clock now d)).probe = none) :
    (∃ f, d = some f ∧ f.kind = .ack ∧ f.seq = p.seq) ∧
    ∃ before e between answer after q, as = before ++ .event i e :: (between ++ answer :: after) ∧ q.Same p ∧
      Begins ((run step (start config id addr seed) before).nodes i) e q ∧
      Answers listener p.seq p.targetAddr
        (run step (start config id addr seed) (before ++ .event i e :: between)) answer ∧
      ∀ l b r j, as = l ++ b :: r →
        (j, p.seq) ∈ (run step (start config id addr seed) l).drawnBy b → l = before := by
  obtain ⟨hpermits, hok⟩ := permits_concat.mp hrun
  obtain ⟨before, e, after, q, rfl, hsame, hb⟩ := probe_began (fun _ => rfl) hprobe
  have hsplit : ∀ es, before ++ Action.event i e :: es = (before ++ [.event i e]) ++ es := by simp
  have hdrawn : (i, p.seq) ∈ (run step (start config id addr seed) before).drawnBy (.event i e) := by
    refine mem_map.mpr ⟨p.seq, ?_, rfl⟩
    rw [hb.drawn, hsame.1]
    exact mem_cons_self
  -- only an ack with the number of the probe completes it, and it was sent
  rcases handle_probe ((run step (start config id addr seed)
      (before ++ .event i e :: after)).nodes i) o clock now d with hkept | ⟨p', f, hp', rfl, hkind, hseq, -⟩
  · have hnone := hkept.symm.trans hdone
    rw [hprobe] at hnone
    cases hnone
  · obtain rfl : p = p' := Option.some.inj (hprobe.symm.trans hp')
    obtain ⟨dest, -, hsent⟩ := hok
    have hused := used rfl (fun _ => rfl) (permits_append.mp hpermits).1
    have hafter : Permits (Allows listener) step
        (run step (start config id addr seed) (before ++ [.event i e])) after := by
      rw [hsplit] at hpermits
      exact (permits_append.mp hpermits).2
    have htarget := onTarget hused hfresh hb hafter
    rw [hsplit, run_append] at hsent
    obtain ⟨between, answer, rest, rfl, hanswer⟩ := htarget.ack _ hsent (hseq.trans hsame.1.symm) hkind
    rw [hsame.1, hsame.2.2, ← run_append, ← hsplit] at hanswer
    refine ⟨⟨f, rfl, hkind, hseq⟩, before, e, between, answer, rest, q, rfl, hsame, hb, hanswer, ?_⟩
    intro l b r j hl hj
    exact hfresh.once hl rfl hj hdrawn

def pairAddr (i : Fin 2) : SocketAddr := .v4 10 (BitVec.ofNat 16 i.val)

def pairListener (a : SocketAddr) : Option (Fin 2) :=
  if a = pairAddr 0 then some 0 else if a = pairAddr 1 then some 1 else none

def pairConfig (i : Fin 2) : Config := ⟨if i = 0 then [pairAddr 1] else [], 1, 1, 1, 1⟩

def pairId (i : Fin 2) : NodeId := if i = 0 then ['a'] else ['b']

def pairStart : Network (Fin 2) := start pairConfig pairId pairAddr (fun _ => 1)

/-- Node `i` receives what was sent last. -/
def receiveLast (i : Fin 2) (net : Network (Fin 2)) : Action (Fin 2) :=
  .event i (.handle .byKey (fun _ => 0) 0 (net.sent.getLast?.map Prod.snd))

/-- The actions of a script, each chosen in the state it meets. -/
def script : List (Network (Fin 2) → Action (Fin 2)) → Network (Fin 2) → List (Action (Fin 2))
  | [], _ => []
  | a :: as, net => a net :: script as (net.step (a net))

def pairRun : List (Action (Fin 2)) :=
  script [fun _ => .event 0 (.incr 5), fun _ => .event 0 (.gossipRound .byKey), receiveLast 1, receiveLast 0,
    fun _ => .event 0 (.startProbe .byKey 0), receiveLast 1] pairStart

theorem allows_receiveLast {net : Network (Fin 2)} {i : Fin 2}
    (h : net.sent.getLast?.all (fun x => pairListener x.1 = some i)) :
    net.Allows pairListener (receiveLast i net) := by
  unfold receiveLast
  cases hlast : net.sent.getLast? with
  | none => exact trivial
  | some x =>
    rw [hlast] at h
    exact ⟨x.1, by simpa using h, mem_of_getLast? hlast⟩

theorem permits_pairRun : Permits (Allows pairListener) step pairStart pairRun :=
  And.intro trivial (And.intro trivial (And.intro (allows_receiveLast (by decide))
    (And.intro (allows_receiveLast (by decide)) (And.intro trivial
      (And.intro (allows_receiveLast (by decide +kernel)) trivial)))))

def pairEnd : Network (Fin 2) := run step pairStart pairRun

/-- One probe, from its start to the ack that completes it. -/
theorem probe_sound_pair : ∃ p, (pairEnd.nodes 0).probe = some p ∧
    ∃ before e between answer after q, pairRun = before ++ .event 0 e :: (between ++ answer :: after) ∧ q.Same p ∧
      Begins ((run step pairStart before).nodes 0) e q ∧
      Answers pairListener p.seq p.targetAddr (run step pairStart (before ++ .event 0 e :: between))
        answer := by
  have hprobe : (pairEnd.nodes 0).probe.isSome := by decide +kernel
  obtain ⟨p, hp⟩ := Option.isSome_iff_exists.mp hprobe
  have hdrawn : ∀ d ∈ pairStart.drawnIn pairRun, d.1 = 0 := by
    have hall : (pairStart.drawnIn pairRun).all (fun d => decide (d.1 = 0)) := by decide +kernel
    exact fun d hd => of_decide_eq_true (all_eq_true.mp hall d hd)
  have hfresh : pairStart.FreshNumbers pairRun :=
    ⟨fun i j s hi hj => (hdrawn _ hi).trans (hdrawn _ hj).symm, by decide +kernel⟩
  have hlast : pairEnd.Allows pairListener (receiveLast 0 pairEnd) := allows_receiveLast (by decide +kernel)
  obtain ⟨-, before, e, between, answer, after, q, hsplit, hsame, hbegins, hanswers, -⟩ :=
    probe_sound pairListener pairConfig pairId pairAddr (fun _ => 1) pairRun 0 .byKey (fun _ => 0) 0
      (pairEnd.sent.getLast?.map Prod.snd) p (permits_concat.mpr ⟨permits_pairRun, hlast⟩) hfresh hp (by decide +kernel)
  exact ⟨p, hp, before, e, between, answer, after, q, hsplit, hsame, hbegins, hanswers⟩

/-! ## The counter -/

/-- The replicated counter neither loses nor counts twice: no slot is ahead of its owner's, which is what was added
there; so no node reports more than the total, and a node that has merged the state of every node after its last
increment reports the total. -/
theorem counter_exact (listener : SocketAddr → Option ι) (config : ι → Config) (id : ι → NodeId) (addr : ι → SocketAddr)
    (seed : ι → UInt64) (hid : Function.Injective id) (as : List (Action ι))
    (hrun : Permits (Allows listener) step (start config id addr seed) as)
    (htotal : added (fun _ => True) as < 2 ^ 64) :
    (∀ m n, ((run step (start config id addr seed) as).nodes m).shared.counter.count (id n) ≤
      ((run step (start config id addr seed) as).nodes n).shared.counter.count (id n)) ∧
    (∀ n, ((run step (start config id addr seed) as).nodes n).shared.counter.count (id n) =
      added (· = n) as) ∧
    (∀ m, ((run step (start config id addr seed) as).nodes m).counterValue ≤
      added (fun _ => True) as) ∧
    ∀ m, (∀ n, ∃ past, Merged (start config id addr seed) n past as m ∧
        added (· = n) past = added (· = n) as) →
      ((run step (start config id addr seed) as).nodes m).counterValue =
        added (fun _ => True) as := by
  have hstart := tally_start config id addr seed
  have h := tally hid hstart hrun htotal
  refine ⟨fun m n => ?_, h.own, fun m => ?_, fun m hmerged => ?_⟩
  · rw [h.own, ← added_id hid]
    exact h.node m (id n)
  · exact h.counterValue_le m
  · refine h.counterValue_eq hid htotal m (fun n => ?_)
    obtain ⟨past, hpast, heq⟩ := hmerged n
    rw [← heq]
    exact hpast.added_le hid hstart hrun htotal

theorem counter_exact_pair : (pairEnd.nodes 1).counterValue = 5 := by
  have hmerged : ∀ n, ∃ past, Merged pairStart n past pairRun 1 ∧
      added (· = n) past = added (· = n) pairRun := by
    intro n
    match n with
    | 0 =>
      refine ⟨pairRun.take 2, ?_, by decide⟩
      have hframe : Merged pairStart 0 (pairRun.take 2) (pairRun.take 3) 1 :=
        @Merged.received _ _ pairStart 0 (pairRun.take 2) [.event 0 (.incr 5)] [] (.event 0 (.gossipRound .byKey))
          1 _ .byKey (fun _ => 0) 0 .own mem_cons_self
      exact ((hframe.later _).later _).later _
    | 1 => exact ⟨pairRun, .own, rfl⟩
  exact (counter_exact pairListener pairConfig pairId pairAddr (fun _ => 1) (by decide) pairRun permits_pairRun
    (by decide)).2.2.2 1 hmerged

end Pulsate.Cluster
