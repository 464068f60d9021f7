import Pulsate.Cli.Up

/-!
# Hot reload

The gateway keeps the tables of the start text for good, so a request is served as the current
generation says exactly as long as that generation and the start text serve it alike.
-/

namespace Pulsate.Cli

open Conf List Lib Option

variable {env : Str → Option Str}

theorem compile_config (env : Str → Option Str) (text : Str) (g : Nat) :
    (compile env text g).toOption.map (·.config) = configOf env text := by
  unfold configOf compile
  cases Flow.parse text with
  | error e => cases e <;> rfl
  | ok ast =>
    simp only
    split <;> rfl

/-- What a reload leaves: the text's configuration if it compiles, the old one if not. -/
theorem reload_current (store : ConfigStore) (text : Str) :
    (store.reload env text).2.current.config = (configOf env text).getD store.current.config := by
  unfold ConfigStore.reload
  simp only
  rw [← compile_config env text store.nextGeneration.toNat]
  cases compile env text store.nextGeneration.toNat <;> rfl

theorem run_state {text : Str} {s : Server} (h : up env text = .ok s) (steps : List Step) :
    (Lib.run (Server.step env) s steps).gateway = s.gateway ∧
      some (Lib.run (Server.step env) s steps).store.current.config =
        configOf env (lastAccepted env text steps) := by
  induction steps using List.reverseRecOn with
  | nil =>
    refine ⟨rfl, ?_⟩
    change some s.store.current.config = configOf env text
    rw [← compile_config env text 0]
    unfold up ConfigStore.load at h
    cases hc : compile env text 0 with
    | error e => rw [hc] at h; cases h
    | ok c => rw [hc] at h; cases h; rfl
  | append_singleton steps step ih =>
    obtain ⟨hg, hs⟩ := ih
    rw [run_append]
    cases step with
    | request r =>
      refine ⟨hg, ?_⟩
      rw [lastAccepted, foldl_append]
      exact hs
    | reload t =>
      refine ⟨hg, ?_⟩
      simp only [run_cons, run_nil, Server.step, reload_current, lastAccepted,
        foldl_append, foldl_cons, foldl_nil]
      cases ht : configOf env t with
      | none => simpa [ht, lastAccepted] using hs
      | some c => simp [ht]

theorem up_gateway {text : Str} {s : Server} (h : up env text = .ok s) :
    (configOf env text).map gatewayOf = some s.gateway := by
  obtain ⟨-, hs⟩ := run_state h []
  simp only [lastAccepted, foldl_nil, run_nil] at hs
  unfold up ConfigStore.load at h
  cases hc : compile env text 0 with
  | error e => rw [hc] at h; cases h
  | ok c =>
    rw [hc] at h
    cases h
    rw [← hs]
    rfl

/-- Every request of a run is served by the tables of the generation that is current when it arrives
exactly if, for each of them, the last accepted text before it serves it as the start text does. -/
theorem requests_follow_reload_iff (env : Str → Option Str) (text : Str) (s : Server)
    (h : up env text = .ok s) (steps : List Step) :
    (∀ before r after, steps = before ++ .request r :: after →
        (Lib.run (Server.step env) s before).gateway.serve r =
          (gatewayOf (Lib.run (Server.step env) s before).store.current.config).serve r) ↔
      ∀ before r after, steps = before ++ .request r :: after →
        ((configOf env (lastAccepted env text before)).map gatewayOf).map (·.serve r) =
          ((configOf env text).map gatewayOf).map (·.serve r) := by
  constructor
  · intro hserved before r after heq
    obtain ⟨hg, hs⟩ := run_state h before
    have := hserved before r after heq
    rw [← hs, up_gateway h, map_some, map_some, map_some, ← this, hg]
  · intro hsame before r after heq
    obtain ⟨hg, hs⟩ := run_state h before
    have := hsame before r after heq
    rw [← hs, up_gateway h, map_some, map_some, map_some, Option.some.injEq] at this
    rw [hg, this]

def startText : Str := "site a.com \x7b route /* ~> respond(status=200) \x7d"

def otherText : Str := "site b.com \x7b route /* ~> respond(status=200) \x7d"

/-- A server started without environment variables on `startText`. -/
def startServer : Server :=
  match up (fun _ => none) startText with
  | .ok s => s
  | .error _ => ⟨⟨⟨Config.empty, 0⟩, none, 0⟩, gatewayOf Config.empty⟩

theorem up_startServer : up (fun _ => none) startText = .ok startServer := by
  have hok : (up (fun _ => none) startText).toOption.isSome := by decide +kernel
  unfold startServer
  cases h : up (fun _ => none) startText with
  | ok s => rfl
  | error e => rw [h] at hok; cases hok

/-- A text without its closing brace. -/
def brokenText : Str := "site a.com \x7b"

theorem configOf_brokenText : (configOf (fun _ => none) brokenText).isSome = false := by decide +kernel

theorem requests_follow_reload_iff_rejected :
    (Lib.run (Server.step (fun _ => none)) startServer [.reload brokenText]).gateway.serve
        ⟨"a.com", "/", "GET"⟩ =
      (gatewayOf (Lib.run (Server.step (fun _ => none)) startServer
        [.reload brokenText]).store.current.config).serve ⟨"a.com", "/", "GET"⟩ := by
  refine (requests_follow_reload_iff (fun _ => none) startText startServer up_startServer
    [.reload brokenText, .request ⟨"a.com", "/", "GET"⟩]).mpr ?_ [.reload brokenText] _ [] rfl
  intro before r after heq
  obtain rfl : before = [.reload brokenText] := by
    rcases before with _ | ⟨b, _ | ⟨c, rest⟩⟩
    · simp at heq
    · simp only [cons_append, List.cons.injEq] at heq
      rw [heq.1]
    · simp at heq
  simp only [lastAccepted, foldl_cons, foldl_nil, configOf_brokenText, Bool.false_eq_true,
    if_false]

/-- After an accepted reload that moves the site to `b.com`, a request for `b.com` finds no route, while
the current generation has one. -/
theorem reload_not_followed :
    let s := Lib.run (Server.step (fun _ => none)) startServer [.reload otherText]
    s.store.current.generation = 1 ∧ s.gateway.serve ⟨"b.com", "/", "GET"⟩ = none ∧
      ((gatewayOf s.store.current.config).serve ⟨"b.com", "/", "GET"⟩).isSome := by
  decide +kernel

end Pulsate.Cli
