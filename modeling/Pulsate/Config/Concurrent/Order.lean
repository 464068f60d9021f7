import Pulsate.Config.Concurrent

/-!
# Reloads one after another, in turn and in any order

A call that nobody interrupts does what the sequential store does. Reloads that publish in turn never hold a generation
other than the current one. In any order, the generations that calls hold are those they found or made.
-/

namespace Pulsate.Conf.Concurrent

open List Lib World
open ConfigStore (Call)

variable {ι : Type} [DecidableEq ι]

/-! ## One call at a time -/

section Alone

variable {env : Str → Option Str} {calls : ι → Call} {w : World ι} {i j : ι}

@[simp] theorem goes_self (w : World ι) (i : ι) (p : Progress ι) : (w.goes i p).progress i = p :=
  Function.update_self (β := fun _ => Progress ι) i p w.progress

@[simp] theorem goes_of_ne (w : World ι) {i j : ι} (h : j ≠ i) (p : Progress ι) : (w.goes i p).progress j = w.progress j :=
  Function.update_of_ne (β := fun _ => Progress ι) h p w.progress

theorem reload_alone {text : Str} (hc : calls i = .reload text) (hp : w.progress i = .start) :
    (Lib.run (step env calls) w [i, i, i, i, i]).store = (w.store.reload env text).2 := by
  cases hcomp : compile env text w.nextGeneration.toNat with
  | error e =>
    rw [ConfigStore.reload_of_error w.store hcomp]
    simp [Lib.run, step, hp, hc, hcomp, goes, store]
  | ok compiled =>
    rw [ConfigStore.reload_of_ok w.store hcomp]
    simp [Lib.run, step, hp, hc, hcomp, goes, store]

theorem rollback_alone (hc : calls i = .rollback) (hp : w.progress i = .start) :
    (Lib.run (step env calls) w [i, i, i, i]).store = w.store.rollback.2 := by
  cases hprev : w.previous with
  | none => simp [Lib.run, step, hp, hc, hprev, goes, store, ConfigStore.rollback]
  | some previous => simp [Lib.run, step, hp, hc, hprev, goes, store, ConfigStore.rollback]

/-- How many accesses a call makes at most. -/
def accesses : Call → Nat
  | .reload _ => 5
  | .rollback => 4

theorem progress_step_ne (h : j ≠ i) : (w.step env calls i).progress j = w.progress j := by
  unfold step
  repeat' split
  all_goals simp [goes, h]

theorem progress_alone (h : j ≠ i) (n : Nat) : (run (step env calls) w (replicate n i)).progress j = w.progress j := by
  induction n generalizing w with
  | zero => rfl
  | succ n ih => exact ih.trans (progress_step_ne h)

theorem store_in_turn {order : List ι} (horder : order.Nodup) (hstart : ∀ i ∈ order, w.progress i = .start) :
    (run (step env calls) w (order.flatMap fun i => replicate (accesses (calls i)) i)).store =
      run (ConfigStore.step env) w.store (order.map calls) := by
  induction order generalizing w with
  | nil => rfl
  | cons i order ih =>
    have hi := hstart i mem_cons_self
    have halone : (run (step env calls) w (replicate (accesses (calls i)) i)).store = w.store.step env (calls i) := by
      cases hc : calls i with
      | reload text => exact reload_alone hc hi
      | rollback => exact rollback_alone hc hi
    obtain ⟨hnew, horder⟩ := nodup_cons.mp horder
    rw [flatMap_cons, run_append, ih horder, halone]
    · rfl
    · intro j hj
      rw [progress_alone (ne_of_mem_of_not_mem hj hnew), hstart j (mem_cons_of_mem i hj)]

end Alone

/-! ## Reloads in turn -/

section InTurn

variable {env : Str → Option Str} {calls : ι → Call} {before w : World ι} {i j : ι}

/-- The call is a reload that holds nothing and has published nothing. -/
def Progress.Quiet : Progress ι → Prop
  | .start | .numbered _ | .compiled _ | .rejected _ => True
  | _ => False

/-- What one access of a reload does. -/
inductive Access (w : World ι) (i : ι) : World ι → Prop
  | prepares {p : Progress ι} (number : UInt64) (old : (w.progress i).Quiet) (new : p.Quiet) :
      Access w i { w.goes i p with nextGeneration := number }
  | loads {new : Generation} (h : w.progress i = .compiled new) : Access w i (w.goes i (.loaded new w.current))
  | demotes {new : Generation} {outgoing : Shared ι} (h : w.progress i = .loaded new outgoing) :
      Access w i { w.goes i (.demoted new outgoing) with previous := some outgoing }
  | publishes {new : Generation} {outgoing : Shared ι} (h : w.progress i = .demoted new outgoing) :
      Access w i { w.goes i (.published new w.current) with current := ⟨some i, new⟩ }
  | rests : Access w i w

/-- The progress of a reload. -/
def Progress.OfReload : Progress ι → Prop
  | .found _ | .ready _ _ | .restored _ _ | .rolledBack _ => False
  | _ => True

theorem access_of_step (hcalls : ∀ i, ∃ text, calls i = .reload text) (h : (w.progress i).OfReload) :
    Access w i (w.step env calls i) := by
  obtain ⟨text, hc⟩ := hcalls i
  cases hp : w.progress i with
  | start =>
    rw [step, hp, hc]
    exact .prepares _ (by rw [hp]; trivial) trivial
  | numbered number =>
    rw [step, hp, hc]
    dsimp only
    cases compile env text number.toNat with
    | error e => exact .prepares w.nextGeneration (by rw [hp]; trivial) trivial
    | ok compiled => exact .prepares w.nextGeneration (by rw [hp]; trivial) trivial
  | compiled new =>
    rw [step, hp]
    exact .loads hp
  | loaded new outgoing =>
    rw [step, hp]
    exact .demotes hp
  | demoted new outgoing =>
    rw [step, hp]
    exact .publishes hp
  | published new replaced =>
    rw [step, hp]
    exact .rests
  | rejected e =>
    rw [step, hp]
    exact .rests
  | found previous => rw [hp] at h; cases h
  | ready previous outgoing => rw [hp] at h; cases h
  | restored previous outgoing => rw [hp] at h; cases h
  | rolledBack result => rw [hp] at h; cases h

/-- Some call has stored the previous generation and not yet the current one. -/
def Between (w : World ι) : Prop := ∃ j new outgoing, w.progress j = .demoted new outgoing

/-- What holds between the accesses of reloads in turn: nobody holds a generation that is not the current one. -/
structure Ordered (before w : World ι) : Prop where
  reloads : ∀ j, (w.progress j).OfReload
  held : ∀ j outgoing, (w.progress j).Holds outgoing → outgoing = w.current
  between : Between w → w.previous = some w.current
  wins : ∃ previous, Wins before w previous ∧ (Between w ∨ w.previous = previous)

omit [DecidableEq ι] in
theorem ordered_init (store : ConfigStore) : Ordered (init store : World ι) (init store) := by
  have hstart : ∀ j : ι, (init store).progress j = .start := fun _ => rfl
  refine ⟨fun j => trivial, ?_, ?_, ⟨_, .inl ⟨?_, rfl, rfl⟩, .inr rfl⟩⟩
  · rintro j outgoing ⟨new, h | h⟩ <;> cases (hstart j).symm.trans h
  · rintro ⟨j, new, outgoing, h⟩
    cases (hstart j).symm.trans h
  · intro j new replaced h
    cases (hstart j).symm.trans h

omit [DecidableEq ι] in
theorem Wins.congr {w' : World ι} {previous : Option (Shared ι)} (h : Wins before w previous)
    (hcur : w'.current = w.current)
    (hpub : ∀ j new replaced, w'.progress j = .published new replaced ↔ w.progress j = .published new replaced) :
    Wins before w' previous := by
  simpa only [Wins, ne_eq, hpub, hcur] using h

theorem goes_eq_iff {p q : Progress ι} (hnew : p ≠ q) (hold : w.progress i ≠ q) :
    (w.goes i p).progress j = q ↔ w.progress j = q := by
  by_cases hj : j = i
  · subst hj
    rw [goes_self]
    exact iff_of_false hnew hold
  · rw [goes_of_ne w hj]

theorem Ordered.goes (h : Ordered before w) {p : Progress ι} (number : UInt64) (hp : p.OfReload)
    (hheld : ∀ outgoing, p.Holds outgoing → outgoing = w.current)
    (hdem : ∀ new outgoing, p ≠ .demoted new outgoing ∧ w.progress i ≠ .demoted new outgoing)
    (hpub : ∀ new replaced, p ≠ .published new replaced ∧ w.progress i ≠ .published new replaced) :
    Ordered before { w.goes i p with nextGeneration := number } := by
  have hdem' : ∀ j new outgoing, (w.goes i p).progress j = .demoted new outgoing ↔ w.progress j = .demoted new outgoing :=
    fun j new outgoing => goes_eq_iff (hdem new outgoing).1 (hdem new outgoing).2
  have hpub' : ∀ j new replaced, (w.goes i p).progress j = .published new replaced ↔ w.progress j = .published new replaced :=
    fun j new replaced => goes_eq_iff (hpub new replaced).1 (hpub new replaced).2
  have hbetween : Between { w.goes i p with nextGeneration := number } ↔ Between w := by
    simp only [Between, hdem']
  refine ⟨fun j => ?_, fun j outgoing hj => ?_, fun hb => h.between (hbetween.mp hb), ?_⟩
  · by_cases hj : j = i
    · subst hj
      rw [goes_self]
      exact hp
    · rw [goes_of_ne w hj]
      exact h.reloads j
  · by_cases hji : j = i
    · subst hji
      rw [goes_self] at hj
      exact hheld outgoing hj
    · rw [goes_of_ne w hji] at hj
      exact h.held j outgoing hj
  · obtain ⟨previous, hwins, hlast⟩ := h.wins
    exact ⟨previous, hwins.congr rfl hpub', hlast.imp_left hbetween.mpr⟩

theorem Ordered.prepares (h : Ordered before w) {p : Progress ι} (number : UInt64) (old : (w.progress i).Quiet)
    (new : p.Quiet) : Ordered before { w.goes i p with nextGeneration := number } := by
  refine h.goes number ?_ ?_ ?_ ?_
  · cases p <;> trivial
  · rintro outgoing ⟨g, rfl | rfl⟩ <;> cases new
  · refine fun g outgoing => ⟨?_, fun hp => ?_⟩
    · rintro rfl
      cases new
    · rw [hp] at old
      cases old
  · refine fun g replaced => ⟨?_, fun hp => ?_⟩
    · rintro rfl
      cases new
    · rw [hp] at old
      cases old

theorem Ordered.loads (h : Ordered before w) {new : Generation} (hp : w.progress i = .compiled new) :
    Ordered before (w.goes i (.loaded new w.current)) := by
  refine h.goes w.nextGeneration trivial ?_ ?_ ?_
  · rintro outgoing ⟨g, hg | hg⟩
    · cases hg
      rfl
    · cases hg
  · rw [hp]
    exact fun _ _ => ⟨nofun, nofun⟩
  · rw [hp]
    exact fun _ _ => ⟨nofun, nofun⟩

theorem Ordered.demotes (h : Ordered before w) {new : Generation} {outgoing : Shared ι}
    (hp : w.progress i = .loaded new outgoing) :
    Ordered before { w.goes i (.demoted new outgoing) with previous := some outgoing } := by
  have hout : outgoing = w.current := h.held i outgoing ⟨new, .inl hp⟩
  refine ⟨fun j => ?_, fun j other hj => ?_, fun _ => congrArg some hout, ?_⟩
  · by_cases hj : j = i
    · subst hj
      rw [goes_self]
      trivial
    · rw [goes_of_ne w hj]
      exact h.reloads j
  · by_cases hji : j = i
    · subst hji
      rw [goes_self] at hj
      obtain ⟨g, hg | hg⟩ := hj <;> cases hg
      exact hout
    · rw [goes_of_ne w hji] at hj
      exact h.held j other hj
  · obtain ⟨previous, hwins, -⟩ := h.wins
    refine ⟨previous, hwins.congr rfl (fun j g replaced => goes_eq_iff nofun ?_), .inl ⟨i, new, outgoing, goes_self w i _⟩⟩
    rw [hp]
    exact nofun

theorem Ordered.publishes (h : Ordered before w) (hturn : InTurn w i) {new : Generation} {outgoing : Shared ι}
    (hp : w.progress i = .demoted new outgoing) :
    Ordered before { w.goes i (.published new w.current) with current := ⟨some i, new⟩ } := by
  obtain ⟨hsmaller, halone⟩ := hturn new outgoing hp
  have hnone : ∀ j other, ¬ ((w.goes i (.published new w.current)).progress j).Holds other := by
    intro j other hj
    by_cases hji : j = i
    · subst hji
      rw [goes_self] at hj
      obtain ⟨g, hg | hg⟩ := hj <;> cases hg
    · rw [goes_of_ne w hji] at hj
      exact halone j hji other hj
  refine ⟨fun j => ?_, fun j other hj => absurd hj (hnone j other), ?_, some w.current, .inr ?_, .inr ?_⟩
  · by_cases hj : j = i
    · subst hj
      rw [goes_self]
      trivial
    · rw [goes_of_ne w hj]
      exact h.reloads j
  · rintro ⟨j, g, other, hj⟩
    exact absurd ⟨g, .inr hj⟩ (hnone j other)
  · refine ⟨i, new, w.current, goes_self w i _, rfl, rfl, fun j g replaced hj => ?_⟩
    by_cases hji : j = i
    · exact .inl hji
    · rw [goes_of_ne w hji] at hj
      exact .inr (hsmaller j g replaced hj)
  · exact h.between ⟨i, new, outgoing, hp⟩

theorem ordered_step (hcalls : ∀ i, ∃ text, calls i = .reload text) (h : Ordered before w) (hturn : InTurn w i) :
    Ordered before (w.step env calls i) := by
  have ha : Access w i (w.step env calls i) := access_of_step hcalls (h.reloads i)
  generalize w.step env calls i = w' at ha
  cases ha with
  | rests => exact h
  | prepares number old new => exact h.prepares number old new
  | loads hp => exact h.loads hp
  | demotes hp => exact h.demotes hp
  | publishes hp => exact h.publishes hturn hp

end InTurn

/-! ## Any order -/

section Whole

/-- The generation is the whole of what the text of the call compiles to. -/
def Makes (env : Str → Option Str) (calls : ι → Call) (i : ι) (new : Generation) : Prop :=
  ∃ text number compiled, calls i = .reload text ∧ compile env text number = .ok compiled ∧ new = generationOf compiled

/-- The generation was there before, or a reload has made it. -/
def Genuine (env : Str → Option Str) (calls : ι → Call) (store : ConfigStore) (s : Shared ι) : Prop :=
  match s.maker with
  | none => s.value = store.current ∨ some s.value = store.previous
  | some i => Makes env calls i s.value

variable (env : Str → Option Str) (calls : ι → Call) (store : ConfigStore)

def Progress.Whole (i : ι) : Progress ι → Prop
  | .compiled new => Makes env calls i new
  | .loaded new outgoing | .demoted new outgoing | .published new outgoing =>
    Makes env calls i new ∧ Genuine env calls store outgoing
  | .found previous | .rolledBack (some previous) => Genuine env calls store previous
  | .ready previous outgoing | .restored previous outgoing =>
    Genuine env calls store previous ∧ Genuine env calls store outgoing
  | _ => True

/-- All generations that are stored, held by a call or returned by one are genuine. -/
structure Whole (w : World ι) : Prop where
  current : Genuine env calls store w.current
  previous : ∀ s ∈ w.previous, Genuine env calls store s
  progress : ∀ i, (w.progress i).Whole env calls store i

variable {env calls store} {w : World ι} {i : ι}

theorem Whole.goes (h : Whole env calls store w) {p : Progress ι} (hp : p.Whole env calls store i) :
    Whole env calls store (w.goes i p) := by
  refine ⟨h.current, h.previous, fun j => ?_⟩
  by_cases hj : j = i
  · rw [hj, goes_self]
    exact hp
  · rw [goes_of_ne w hj]
    exact h.progress j

theorem whole_step (w : World ι) (i : ι) (h : Whole env calls store w) : Whole env calls store (w.step env calls i) := by
  have hi := h.progress i
  unfold step
  split
  next =>
    split
    next => exact ⟨h.current, h.previous, (h.goes (p := .numbered w.nextGeneration) trivial).progress⟩
    next =>
      split
      next => exact h.goes trivial
      next previous hprevious => exact h.goes (h.previous previous hprevious)
  next number hp =>
    split
    next text hc =>
      split
      next => exact h.goes trivial
      next compiled hcompiled => exact h.goes ⟨text, _, compiled, hc, hcompiled, rfl⟩
    next => exact h
  next new hp =>
    rw [hp] at hi
    exact h.goes ⟨hi, h.current⟩
  next new outgoing hp =>
    rw [hp] at hi
    exact ⟨h.current, fun s hs => Option.some.inj hs ▸ hi.2, (h.goes (p := .demoted new outgoing) hi).progress⟩
  next new outgoing hp =>
    rw [hp] at hi
    exact ⟨hi.1, h.previous, (h.goes (p := .published new w.current) ⟨hi.1, h.current⟩).progress⟩
  next previous hp =>
    rw [hp] at hi
    exact h.goes ⟨hi, h.current⟩
  next previous outgoing hp =>
    rw [hp] at hi
    exact ⟨hi.1, h.previous, (h.goes (p := .restored previous outgoing) hi).progress⟩
  next previous outgoing hp =>
    rw [hp] at hi
    exact ⟨h.current, fun s hs => Option.some.inj hs ▸ hi.2, (h.goes (p := .rolledBack (some previous)) hi.1).progress⟩
  next => exact h
  next => exact h
  next => exact h

end Whole

end Pulsate.Conf.Concurrent
