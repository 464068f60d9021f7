import Mathlib.Algebra.Group.Nat.Defs
import Mathlib.Logic.Relation

/-!
# The accept loop (`pulsate-net`)

One listener: the semaphore that caps its connections, the connections that are open, the watch channel the lifecycle is sent
over, and `serve`. Each wait of `serve` that ends is a step, and so is each poll of its `select!`; between two of them the
connections end, the lifecycle changes and time passes in any order.
-/

namespace Pulsate.Net

inductive Lifecycle
  | running
  | draining
  | stopped
  deriving DecidableEq, Repr

structure ListenerConfig where
  maxConnections : Nat
  drainGrace : Nat
  deriving DecidableEq, Repr

/-! ## The watch channel -/

/-- The value last sent, with its version, and the version the receiver has seen. -/
structure Watch where
  value : Lifecycle
  version : Nat
  seen : Nat
  closed : Bool
  deriving DecidableEq, Repr

namespace Watch

def channel (value : Lifecycle) : Watch := ⟨value, 0, 0, false⟩

def send (w : Watch) (value : Lifecycle) : Watch := { w with value, version := w.version + 1 }

/-- One poll of `changed`: a version not yet seen is marked as seen, and a channel without a sender is an error. -/
def changed (w : Watch) : Option (Except Unit Watch) :=
  if w.version ≠ w.seen then some (.ok { w with seen := w.version })
  else if w.closed then some (.error ())
  else none

/-- The lifecycle has left `Running`. -/
def HasLeft (w : Watch) : Prop := w.value ≠ .running

instance decidableHasLeft (w : Watch) : Decidable w.HasLeft := inferInstanceAs (Decidable (_ ≠ _))

end Watch

/-! ## The loop -/

/-- Where `serve` stands: waiting for a permit, at the `select!` with one, in `drain`, or done. -/
inductive Position
  | acquiring
  | selecting
  | draining (deadline : Nat)
  | collected
  | returned
  | failed
  deriving DecidableEq, Repr

/-- A listener. `free` counts the permits that neither a connection nor `serve` holds. -/
structure Listener where
  free : Nat
  live : Nat
  position : Position
  lifecycle : Watch
  now : Nat
  deriving DecidableEq, Repr

/-- The `accept` branch of the `select!`: the permit goes to the task of the connection, or is dropped with the error. -/
def Listener.onAccepted (s : Listener) : Bool → Listener
  | true => { s with live := s.live + 1, position := .acquiring }
  | false => { s with free := s.free + 1, position := .failed }

inductive LoopStep
  | acquire
  | change
  | accept (fine : Bool)
  | collect
  | expire
  | finish
  deriving DecidableEq, Repr

inductive Action
  | send (value : Lifecycle)
  | close
  | disconnect
  | tick (d : Nat)
  | loop (l : LoopStep)
  deriving DecidableEq, Repr

namespace ListenerConfig

variable (config : ListenerConfig)

/-- The permits `drain` asks for. -/
def want : Nat := if config.maxConnections < 2 ^ 32 then config.maxConnections else 2 ^ 32 - 1

def start : Listener := ⟨config.maxConnections, 0, .acquiring, .channel .running, 0⟩

/-- The `changed` branch of the `select!`. Either way out of it drops the permit. -/
def onChanged (s : Listener) : Except Unit Watch → Listener
  | .error () => { s with free := s.free + 1, position := .draining (s.now + config.drainGrace) }
  | .ok w =>
    if w.value ≠ .running then
      { s with free := s.free + 1, lifecycle := w, position := .draining (s.now + config.drainGrace) }
    else { s with free := s.free + 1, lifecycle := w, position := .acquiring }

/-- A step of `serve`, where it can make it. The `select!` is biased: it accepts only when no change is to be seen. -/
def loopStep (s : Listener) : LoopStep → Option Listener
  | .acquire =>
    match s.position, s.free with
    | .acquiring, free + 1 => some { s with free, position := .selecting }
    | _, _ => none
  | .change =>
    if s.position = .selecting then s.lifecycle.changed.map (config.onChanged s) else none
  | .accept fine =>
    if s.position = .selecting ∧ s.lifecycle.changed.isNone then some (s.onAccepted fine) else none
  | .collect =>
    match s.position with
    | .draining _ =>
      if config.want ≤ s.free then some { s with free := s.free - config.want, position := .collected } else none
    | _ => none
  | .expire =>
    match s.position with
    | .draining deadline => if deadline ≤ s.now then some { s with position := .returned } else none
    | _ => none
  | .finish =>
    if s.position = .collected then some { s with free := s.free + config.want, position := .returned } else none

def step (s : Listener) : Action → Option Listener
  | .send value => if s.lifecycle.closed then none else some { s with lifecycle := s.lifecycle.send value }
  | .close => some { s with lifecycle := { s.lifecycle with closed := true } }
  | .disconnect =>
    match s.live with
    | 0 => none
    | live + 1 => some { s with free := s.free + 1, live }
  | .tick d => some { s with now := s.now + d }
  | .loop l => config.loopStep s l

/-- The states of the listener, whatever happens in whatever order. -/
def Reachable (s : Listener) : Prop :=
  Relation.ReflTransGen (fun s s' => ∃ a, config.step s a = some s') config.start s

/-- Steps of `serve` and of the clock only: no connection ends. -/
def Unaided (s s' : Listener) : Prop :=
  Relation.ReflTransGen (fun s s' => (∃ l, config.loopStep s l = some s') ∨ ∃ d, config.step s (.tick d) = some s') s s'

end ListenerConfig

namespace Position

/-- How many steps of `serve` are left before it drains, while it accepts. -/
def distance : Position → Option Nat
  | acquiring => some 2
  | selecting => some 1
  | draining _ => some 0
  | _ => none

/-- `serve` still accepts. -/
def Accepts (p : Position) : Prop := p = acquiring ∨ p = selecting

instance decidableAccepts (p : Position) : Decidable p.Accepts := inferInstanceAs (Decidable (_ ∨ _))

end Position

namespace Listener

/-- The permits `serve` itself holds. -/
def held (config : ListenerConfig) (s : Listener) : Nat :=
  match s.position with
  | .selecting => 1
  | .collected => config.want
  | _ => 0

/-- Every permit is accounted for. -/
structure Accounted (config : ListenerConfig) (s : Listener) : Prop where
  balance : s.free + s.live + s.held config = config.maxConnections
  capped : s.live ≤ config.maxConnections
  drained : s.position = .collected → s.live = 0

/-- The way into draining is open, whether or not a connection ever ends, and the grace bounds what follows. -/
structure CanDrain (config : ListenerConfig) (s : Listener) : Prop where
  nearer : ∃ l s' m n, config.loopStep s l = some s' ∧ s'.position.distance = some m ∧
    s.position.distance = some n ∧ m < n
  returns : ∃ s', config.Unaided s s' ∧ s'.position = .returned ∧ s'.now ≤ s.now + config.drainGrace

end Listener

/-! ## Runs -/

namespace ListenerConfig

/-- The state that the actions lead to, if each can be taken. -/
def run (config : ListenerConfig) (actions : List Action) : Option Listener := actions.foldlM config.step config.start

/-- `serve` has gone through the drain step. -/
def Drained (config : ListenerConfig) (actions : List Action) : Prop :=
  ∃ pre s deadline, pre <+: actions ∧ config.run pre = some s ∧ s.position = .draining deadline

end ListenerConfig

/-- The lifecycle has left `Running` at some time, or its sender was dropped. -/
def Left (actions : List Action) : Prop := .close ∈ actions ∨ ∃ value, value ≠ .running ∧ .send value ∈ actions

/-- `serve` has accepted all the time unless it was told to stop, and has not returned without draining. -/
structure Persists (config : ListenerConfig) (actions : List Action) (s : Listener) : Prop where
  accepts : ¬ s.position.Accepts → Left actions
  drains : s.position = .returned ∨ s.position = .failed → config.Drained actions

/-- `serve` has left its loop the regular way. -/
def Position.IsOut (p : Position) : Prop := ¬ p.Accepts ∧ p ≠ .failed

def acceptError : Action := .loop (.accept false)

end Pulsate.Net
