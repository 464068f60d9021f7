import Mathlib.Data.List.Induction
import Pulsate.Net.Serve

/-!
# Permits and draining

Permits only move: from the semaphore to the loop, from the loop to a connection, and back. The loop waits for its permit
before it looks at the lifecycle, so a full table of connections keeps it from draining.
-/

namespace Pulsate.Net

open Relation List Option ListenerConfig Position Listener

variable {config : ListenerConfig} {s s' : Listener}

variable {a : Action} {actions : List Action}

/-! ## What a step can do -/

/-- Every action, with what it needs and what it does. -/
inductive Steps (config : ListenerConfig) (s : Listener) : Action → Listener → Prop
  | send (value : Lifecycle) : Steps config s (.send value) { s with lifecycle := s.lifecycle.send value }
  | close : Steps config s .close { s with lifecycle := { s.lifecycle with closed := true } }
  | disconnect {live : Nat} (h : s.live = live + 1) : Steps config s .disconnect { s with free := s.free + 1, live }
  | tick (d : Nat) : Steps config s (.tick d) { s with now := s.now + d }
  | acquire {free : Nat} (hp : s.position = .acquiring) (h : s.free = free + 1) :
      Steps config s (.loop .acquire) { s with free, position := .selecting }
  | orphan (hp : s.position = .selecting) (h : s.lifecycle.closed) :
      Steps config s (.loop .change) { s with free := s.free + 1, position := .draining (s.now + config.drainGrace) }
  | leave (hp : s.position = .selecting) (h : s.lifecycle.HasLeft) :
      Steps config s (.loop .change) { s with
        free := s.free + 1
        lifecycle := { s.lifecycle with seen := s.lifecycle.version }
        position := .draining (s.now + config.drainGrace) }
  | stay (hp : s.position = .selecting) (h : s.lifecycle.value = .running) :
      Steps config s (.loop .change)
        { s with free := s.free + 1, lifecycle := { s.lifecycle with seen := s.lifecycle.version }, position := .acquiring }
  | accept (hp : s.position = .selecting) :
      Steps config s (.loop (.accept true)) { s with live := s.live + 1, position := .acquiring }
  | fail (hp : s.position = .selecting) : Steps config s acceptError { s with free := s.free + 1, position := .failed }
  | collect {deadline : Nat} (hp : s.position = .draining deadline) (h : config.want ≤ s.free) :
      Steps config s (.loop .collect) { s with free := s.free - config.want, position := .collected }
  | expire {deadline : Nat} (hp : s.position = .draining deadline) : Steps config s (.loop .expire) { s with position := .returned }
  | finish (hp : s.position = .collected) :
      Steps config s (.loop .finish) { s with free := s.free + config.want, position := .returned }

theorem steps_of_change {r : Except Unit Watch} (hp : s.position = .selecting) (h : s.lifecycle.changed = some r) :
    Steps config s (.loop .change) (config.onChanged s r) := by
  unfold Watch.changed at h
  split at h
  · cases h
    unfold onChanged
    dsimp only
    split
    · exact .leave hp ‹_›
    · exact .stay hp (not_not.mp ‹_›)
  · split at h
    · cases h
      exact .orphan hp ‹_›
    · cases h

theorem steps_of_step (h : config.step s a = some s') : Steps config s a s' := by
  cases a with
  | send value =>
    simp only [step] at h
    split at h
    · cases h
    · cases h
      exact .send value
  | close =>
    cases h
    exact .close
  | disconnect =>
    simp only [step] at h
    split at h
    · cases h
    · cases h
      exact .disconnect ‹_›
  | tick d =>
    cases h
    exact .tick d
  | loop l =>
    unfold step loopStep at h
    dsimp only at h
    split at h
    · split at h
      · cases h
        exact .acquire ‹_› ‹_›
      · cases h
    · split at h
      · obtain ⟨r, hr, rfl⟩ := map_eq_some_iff.mp h
        exact steps_of_change ‹_› hr
      · cases h
    · rename_i fine
      split at h
      · rename_i hp
        cases h
        cases fine with
        | true => exact .accept hp.1
        | false => exact .fail hp.1
      · cases h
    · split at h
      · split at h
        · cases h
          exact .collect ‹_› ‹_›
        · cases h
      · cases h
    · split at h
      · split at h
        · cases h
          exact .expire ‹_›
        · cases h
      · cases h
    · split at h
      · cases h
        exact .finish ‹_›
      · cases h

/-! ## Permits -/

/-- The permits in the semaphore, with the connections and with `serve`. -/
def Listener.permits (config : ListenerConfig) (s : Listener) : Nat := s.free + s.live + s.held config

theorem permits_step (h : Steps config s a s') : s'.permits config = s.permits config := by
  cases h with
  | send value => rfl
  | close => rfl
  | tick d => rfl
  | expire hp => simp [permits, held, hp]
  | _ =>
    simp [permits, held, *]
    omega

theorem permits_of_reachable (h : config.Reachable s) : s.permits config = config.maxConnections := by
  induction h with
  | refl => simp [start, permits, held]
  | tail _ hstep ih =>
    obtain ⟨a, ha⟩ := hstep
    rw [permits_step (steps_of_step ha), ih]

theorem reachable_of_run (es : List Action) (h : es.foldlM config.step config.start = some s) : config.Reachable s := by
  have run : ∀ (es : List Action) (s₀ : Listener), es.foldlM config.step s₀ = some s →
      ReflTransGen (fun s s' => ∃ a, config.step s a = some s') s₀ s := by
    intro es
    induction es with
    | nil =>
      rintro s₀ ⟨⟩
      exact .refl
    | cons a es ih =>
      intro s₀ hes
      rw [foldlM_cons] at hes
      obtain ⟨s₁, hs₁, hrest⟩ := bind_eq_some_iff.mp hes
      exact .head ⟨a, hs₁⟩ (ih s₁ hrest)
  exact run es config.start h

theorem want_eq (h : config.maxConnections ≤ 2 ^ 32 - 1) : config.want = config.maxConnections := by
  unfold want
  rw [if_pos (by omega)]

/-- In every state of a listener its permits are free, with a connection or with `serve`; there are never more connections
than the cap, and none is left once `drain` has every permit. -/
theorem accounted_of_reachable (config : ListenerConfig) (s : Listener) (hmax : config.maxConnections ≤ 2 ^ 32 - 1)
    (h : config.Reachable s) : s.Accounted config := by
  have hp := permits_of_reachable h
  unfold permits at hp
  refine ⟨hp, by omega, fun hc => ?_⟩
  simp only [held, hc, want_eq hmax] at hp
  omega

/-- A cap of two, one connection open and the loop at its `select!`. -/
theorem accounted_of_reachable_two :
    (⟨0, 1, .selecting, .channel .running, 0⟩ : Listener).Accounted ⟨2, 30⟩ :=
  accounted_of_reachable ⟨2, 30⟩ _ (by decide)
    (reachable_of_run [.loop .acquire, .loop (.accept true), .loop .acquire] (by decide))

/-! ## Draining -/

/-- The loop has acted on every version of the lifecycle it has seen. -/
structure Watch.Fresh (w : Watch) : Prop where
  le : w.seen ≤ w.version
  unseen : w.HasLeft → w.version ≠ w.seen

theorem Watch.Fresh.send {w : Watch} (h : w.Fresh) (value : Lifecycle) : (w.send value).Fresh := by
  have hle := h.le
  refine ⟨?_, fun _ => ?_⟩
  · simp only [Watch.send]
    omega
  · simp only [Watch.send]
    omega

/-- While `serve` accepts, it has acted on what it has seen. -/
def Listener.Attends (s : Listener) : Prop := s.position.Accepts → s.lifecycle.Fresh

theorem attends_step (h : Steps config s a s') (hs : s.Attends) : s'.Attends := by
  cases h with
  | send value => exact fun ha => (hs ha).send value
  | close => exact fun ha => ⟨(hs ha).le, (hs ha).unseen⟩
  | disconnect => exact hs
  | tick d => exact hs
  | acquire hp => exact fun _ => hs (.inl hp)
  | stay hp h => exact fun _ => ⟨Nat.le_refl _, fun hl => absurd h hl⟩
  | accept hp => exact fun _ => hs (.inr hp)
  | _ =>
    intro ha
    simp [Accepts] at ha

theorem attends_of_reachable (h : config.Reachable s) : s.Attends := by
  induction h with
  | refl => exact fun _ => ⟨Nat.le_refl _, fun hl => absurd rfl hl⟩
  | tail _ hstep ih =>
    obtain ⟨a, ha⟩ := hstep
    exact attends_step (steps_of_step ha) ih

/-- At the `select!`, a lifecycle that has left `Running` starts the drain. -/
theorem change_drains (config : ListenerConfig) (hp : s.position = .selecting) (hf : s.lifecycle.Fresh) (hl : s.lifecycle.HasLeft) :
    ∃ s', config.loopStep s .change = some s' ∧ s'.position = .draining (s.now + config.drainGrace) ∧ s'.now = s.now := by
  have hc : s.lifecycle.changed = some (.ok { s.lifecycle with seen := s.lifecycle.version }) := by
    simp [Watch.changed, hf.unseen hl]
  refine ⟨config.onChanged s (.ok { s.lifecycle with seen := s.lifecycle.version }), ?_, ?_⟩
  · simp [loopStep, hp, hc]
  · have hv : s.lifecycle.value ≠ .running := hl
    simp [onChanged, hv]

/-- A drain returns once its grace is over, with every connection still open. -/
theorem draining_returns (config : ListenerConfig) {n : Nat} (hp : s.position = .draining (s.now + n)) :
    ∃ s', config.Unaided s s' ∧ s'.position = .returned ∧ s'.now = s.now + n := by
  refine ⟨{ s with now := s.now + n, position := .returned }, ?_, rfl, rfl⟩
  have hexpire : config.loopStep { s with now := s.now + n } .expire =
      some { s with now := s.now + n, position := .returned } := by
    simp [loopStep, hp]
  exact ReflTransGen.head (.inr ⟨n, rfl⟩) (ReflTransGen.single (.inl ⟨.expire, hexpire⟩))

theorem canDrain_of_selecting (config : ListenerConfig) (hp : s.position = .selecting) (hf : s.lifecycle.Fresh)
    (hl : s.lifecycle.HasLeft) : s.CanDrain config := by
  obtain ⟨s₁, hs₁, hp₁, hn₁⟩ := change_drains config hp hf hl
  obtain ⟨s₂, hs₂, hp₂, hn₂⟩ := draining_returns config (hp₁.trans (by rw [hn₁]))
  refine ⟨⟨.change, s₁, 0, 1, hs₁, by rw [hp₁]; rfl, by rw [hp]; rfl, by decide⟩, s₂, ?_, hp₂, by omega⟩
  exact ReflTransGen.head (.inl ⟨.change, hs₁⟩) hs₂

theorem canDrain_of_acquiring (hp : s.position = .acquiring) (hfree : 0 < s.free) (hf : s.lifecycle.Fresh)
    (hl : s.lifecycle.HasLeft) : s.CanDrain config := by
  obtain ⟨free, hfr⟩ := Nat.exists_eq_add_of_lt hfree
  rw [Nat.zero_add] at hfr
  have hstep : config.loopStep s .acquire = some { s with free, position := .selecting } := by
    simp [loopStep, hp, hfr]
  obtain ⟨-, s', hs', hp', hn'⟩ :=
    canDrain_of_selecting config (s := { s with free, position := .selecting }) rfl hf hl
  refine ⟨⟨.acquire, _, 1, 2, hstep, rfl, by rw [hp]; rfl, by decide⟩, s', ?_, hp', hn'⟩
  exact ReflTransGen.head (.inl ⟨.acquire, hstep⟩) hs'

/-- Waiting for a permit, `serve` can only take one. -/
theorem free_of_canDrain (hp : s.position = .acquiring) (h : s.CanDrain config) : 0 < s.free := by
  obtain ⟨l, s', -, -, hstep, -⟩ := h.nearer
  cases steps_of_step (a := .loop l) hstep with
  | acquire _ hf => omega
  | _ => simp_all

/-- Once the lifecycle has left `Running`, an accepting `serve` can go on to drain exactly while there are fewer connections
than the cap. -/
theorem canDrain_iff (config : ListenerConfig) (s : Listener) (h : config.Reachable s) (hl : s.lifecycle.HasLeft)
    (ha : s.position.Accepts) : s.CanDrain config ↔ s.live < config.maxConnections := by
  have hperm := permits_of_reachable h
  have hf := attends_of_reachable h ha
  unfold permits at hperm
  rcases ha with hp | hp
  · simp only [held, hp] at hperm
    constructor
    · intro hc
      have := free_of_canDrain hp hc
      omega
    · intro hlt
      exact canDrain_of_acquiring hp (by omega) hf hl
  · simp only [held, hp] at hperm
    exact iff_of_true (canDrain_of_selecting config hp hf hl) (by omega)

/-- One connection under a cap of two. -/
theorem canDrain_iff_one :
    (⟨1, 1, .acquiring, (Watch.channel .running).send .draining, 0⟩ : Listener).CanDrain ⟨2, 30⟩ :=
  (canDrain_iff ⟨2, 30⟩ _ (reachable_of_run [.loop .acquire, .loop (.accept true), .send .draining] (by decide)) (by decide)
    (by decide)).mpr (by decide)

/-- One connection under a cap of one, and then the signal: `serve` waits for the connection to end. -/
theorem full_not_canDrain : ∃ s : Listener, Reachable ⟨1, 30⟩ s ∧ s.lifecycle.HasLeft ∧ s.position.Accepts ∧
    ¬ s.CanDrain ⟨1, 30⟩ := by
  refine ⟨⟨0, 1, .acquiring, (Watch.channel .running).send .draining, 0⟩,
    reachable_of_run [.loop .acquire, .loop (.accept true), .send .draining] (by decide), by decide, by decide, ?_⟩
  intro h
  exact absurd (free_of_canDrain rfl h) (by decide)

/-! ## Leaving the loop -/

/-- How a step moves `serve`. -/
inductive Moves (s : Listener) (a : Action) (s' : Listener) : Prop
  | rests (ha : a ≠ acceptError) (hp : s'.position = s.position)
  | accepts (ha : a ≠ acceptError) (hp : s.position.Accepts) (hp' : s'.position.Accepts)
  | drains (ha : a ≠ acceptError) (hp : s.position.Accepts) (hleft : s.lifecycle.HasLeft ∨ s.lifecycle.closed) {deadline : Nat}
      (hp' : s'.position = .draining deadline)
  | fails (ha : a = acceptError) (hp : s.position.Accepts) (hp' : s'.position = .failed)
  | ends (ha : a ≠ acceptError) (hp : s.position.IsOut) (hp' : s'.position = .collected ∨ s'.position = .returned)

theorem moves_of_step (h : Steps config s a s') : Moves s a s' ∧
    (s'.lifecycle.HasLeft → s.lifecycle.HasLeft ∨ ∃ value, value ≠ .running ∧ a = .send value) ∧
    (s'.lifecycle.closed → s.lifecycle.closed ∨ a = .close) := by
  cases h with
  | send value => exact ⟨.rests (by simp [acceptError]) rfl, fun hl => .inr ⟨value, hl, rfl⟩, .inl⟩
  | close => exact ⟨.rests (by simp [acceptError]) rfl, .inl, fun _ => .inr rfl⟩
  | disconnect => exact ⟨.rests (by simp [acceptError]) rfl, .inl, .inl⟩
  | tick d => exact ⟨.rests (by simp [acceptError]) rfl, .inl, .inl⟩
  | acquire hp => exact ⟨.accepts (by simp [acceptError]) (.inl hp) (.inr rfl), .inl, .inl⟩
  | orphan hp h => exact ⟨.drains (by simp [acceptError]) (.inr hp) (.inr h) rfl, .inl, .inl⟩
  | leave hp h => exact ⟨.drains (by simp [acceptError]) (.inr hp) (.inl h) rfl, .inl, .inl⟩
  | stay hp h => exact ⟨.accepts (by simp [acceptError]) (.inr hp) (.inl rfl), .inl, .inl⟩
  | accept hp => exact ⟨.accepts (by simp [acceptError]) (.inr hp) (.inl rfl), .inl, .inl⟩
  | fail hp => exact ⟨.fails rfl (.inr hp) rfl, .inl, .inl⟩
  | collect hp => exact ⟨.ends (by simp [acceptError]) (by simp [hp, IsOut, Accepts]) (.inl rfl), .inl, .inl⟩
  | expire hp => exact ⟨.ends (by simp [acceptError]) (by simp [hp, IsOut, Accepts]) (.inr rfl), .inl, .inl⟩
  | finish hp => exact ⟨.ends (by simp [acceptError]) (by simp [hp, IsOut, Accepts]) (.inr rfl), .inl, .inl⟩

theorem run_concat (actions : List Action) (a : Action) :
    config.run (actions ++ [a]) = (config.run actions).bind (config.step · a) := by
  rw [run, foldlM_append]
  show (config.run actions).bind (fun s => (config.step s a).bind some) = _
  simp

theorem drained_concat (h : config.run (actions ++ [a]) = some s) :
    config.Drained (actions ++ [a]) ↔ config.Drained actions ∨ ∃ deadline, s.position = .draining deadline := by
  constructor
  · rintro ⟨pre, s', deadline, hpre, hrun, hp⟩
    rcases prefix_concat_iff.mp hpre with rfl | hpre
    · cases h.symm.trans hrun
      exact .inr ⟨deadline, hp⟩
    · exact .inl ⟨pre, s', deadline, hpre, hrun, hp⟩
  · rintro (⟨pre, s', deadline, hpre, hrun, hp⟩ | ⟨deadline, hp⟩)
    · exact ⟨pre, s', deadline, hpre.trans (prefix_append _ _), hrun, hp⟩
    · exact ⟨_, s, deadline, prefix_rfl, h, hp⟩

theorem Left.mono (h : Left actions) (a : Action) : Left (actions ++ [a]) :=
  h.imp (mem_append_left _) (fun ⟨value, hv, hmem⟩ => ⟨value, hv, mem_append_left _ hmem⟩)

/-- What the place of `serve` tells of a run. -/
structure Tells (config : ListenerConfig) (actions : List Action) (s : Listener) : Prop where
  left : s.lifecycle.HasLeft ∨ s.lifecycle.closed ∨ s.position.IsOut → Left actions
  drained : config.Drained actions ↔ s.position.IsOut
  failed : acceptError ∈ actions ↔ s.position = .failed

theorem tells_of_run (h : config.run actions = some s) : Tells config actions s := by
  induction actions using List.reverseRecOn generalizing s with
  | nil =>
    cases h
    have hin : ¬ config.start.position.IsOut := by simp [start, IsOut, Accepts]
    refine ⟨?_, iff_of_false ?_ hin, by simp [start]⟩
    · rintro (h | h | h)
      · exact absurd rfl h
      · cases h
      · exact absurd h hin
    · rintro ⟨pre, s', deadline, hpre, hrun, hp⟩
      cases prefix_nil.mp hpre
      cases hrun
      cases hp
  | append_singleton actions a ih =>
    have hrun := h
    rw [run_concat] at h
    obtain ⟨s₀, hs₀, hstep⟩ := bind_eq_some_iff.mp h
    have ht := ih hs₀
    obtain ⟨hmoves, hleft, hclosed⟩ := moves_of_step (steps_of_step hstep)
    have hstill : s.lifecycle.HasLeft ∨ s.lifecycle.closed → Left (actions ++ [a]) := by
      rintro (hl | hc)
      · rcases hleft hl with hl | ⟨value, hv, rfl⟩
        · exact (ht.left (.inl hl)).mono a
        · exact .inr ⟨value, hv, by simp⟩
      · rcases hclosed hc with hc | rfl
        · exact (ht.left (.inr (.inl hc))).mono a
        · exact .inl (by simp)
    have hout : s.position.IsOut → Left (actions ++ [a]) := by
      intro hp
      cases hmoves with
      | rests _ hp' => exact (ht.left (.inr (.inr (hp' ▸ hp)))).mono a
      | accepts _ _ hp' => exact absurd hp' hp.1
      | drains _ _ hl _ => exact (ht.left (hl.imp_right .inl)).mono a
      | fails _ _ hp' => exact absurd hp' hp.2
      | ends _ hp' _ => exact (ht.left (.inr (.inr hp'))).mono a
    refine ⟨fun h => ?_, ?_, ?_⟩
    · rcases h with h | h | h
      · exact hstill (.inl h)
      · exact hstill (.inr h)
      · exact hout h
    · rw [drained_concat hrun, ht.drained]
      cases hmoves with
      | rests _ hp' =>
        rw [hp', or_iff_left_of_imp]
        rintro ⟨d, hd⟩
        exact hd ▸ ⟨by simp [Accepts], by simp⟩
      | accepts _ hp hp' =>
        refine iff_of_false ?_ (fun h => h.1 hp')
        rintro (h | ⟨d, hd⟩)
        · exact h.1 hp
        · simp [hd, Accepts] at hp'
      | drains _ _ _ hp' => exact iff_of_true (.inr ⟨_, hp'⟩) (hp' ▸ ⟨by simp [Accepts], by simp⟩)
      | fails _ hp hp' =>
        refine iff_of_false ?_ (fun h => h.2 hp')
        rintro (h | ⟨d, hd⟩)
        · exact h.1 hp
        · cases hp'.symm.trans hd
      | ends _ hp hp' =>
        refine iff_of_true (.inl hp) ?_
        rcases hp' with hp' | hp' <;> exact hp' ▸ ⟨by simp [Accepts], by simp⟩
    · rw [mem_append, mem_singleton, ht.failed]
      cases hmoves with
      | rests ha hp' => rw [hp', or_iff_left ha.symm]
      | accepts ha hp hp' =>
        rw [or_iff_left ha.symm]
        exact iff_of_false (fun h => by simp [h, Accepts] at hp) (fun h => by simp [h, Accepts] at hp')
      | drains ha hp _ hp' =>
        rw [or_iff_left ha.symm]
        exact iff_of_false (fun h => by simp [h, Accepts] at hp) (fun h => by simp [h] at hp')
      | fails ha _ hp' => exact iff_of_true (.inr ha.symm) hp'
      | ends ha hp hp' =>
        rw [or_iff_left ha.symm]
        exact iff_of_false hp.2 (fun h => by simp [h] at hp')

/-- `serve` persists in a run exactly if no accept of the run fails. -/
theorem persists_iff (config : ListenerConfig) (actions : List Action) (s : Listener) (h : config.run actions = some s) :
    Persists config actions s ↔ acceptError ∉ actions := by
  have ht := tells_of_run h
  rw [ht.failed]
  constructor
  · intro hp hfailed
    exact (ht.drained.mp (hp.drains (.inr hfailed))).2 hfailed
  · intro hnot
    refine ⟨fun ha => ht.left (.inr (.inr ⟨ha, hnot⟩)), fun hp => ht.drained.mpr ⟨?_, hnot⟩⟩
    rcases hp with hp | hp
    · simp [hp, Accepts]
    · exact absurd hp hnot

/-- A connection comes, and then the signal. -/
theorem persists_iff_signal : ∃ s, run ⟨2, 30⟩
      [.loop .acquire, .loop (.accept true), .loop .acquire, .send .draining, .loop .change, .disconnect, .loop .collect, .loop .finish] =
        some s ∧ s.position = .returned ∧ Persists ⟨2, 30⟩
      [.loop .acquire, .loop (.accept true), .loop .acquire, .send .draining, .loop .change, .disconnect, .loop .collect, .loop .finish]
        s :=
  ⟨_, rfl, rfl, (persists_iff ⟨2, 30⟩ _ _ rfl).mpr (by decide)⟩

/-- One accept that fails, for example for want of a descriptor, and nothing else happens. -/
theorem accept_error_returns : ∃ s, run ⟨1, 30⟩ [.loop .acquire, acceptError] = some s ∧ s.position = .failed ∧
    ¬ Persists ⟨1, 30⟩ [.loop .acquire, acceptError] s := by
  refine ⟨_, rfl, rfl, fun h => ?_⟩
  rcases h.accepts (by decide) with hclose | ⟨value, -, hsend⟩
  · simp [acceptError] at hclose
  · simp [acceptError] at hsend

end Pulsate.Net
