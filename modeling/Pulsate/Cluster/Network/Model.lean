import Mathlib.Logic.Function.Basic
import Pulsate.Cluster.Gossip

/-!
# Nodes and the datagrams between them

Any number of nodes that run the gossip runtime. What was sent stays on record, so that a datagram may arrive
late, twice, out of order or never; nothing else arrives.
-/

namespace Pulsate.Cluster

/-! ## Sequence numbers -/

/-- The next `n` numbers after `seq`. -/
def numbersAfter : UInt64 → Nat → List UInt64
  | _, 0 => []
  | seq, n + 1 => (seq + 1) :: numbersAfter (seq + 1) n

/-- How many sequence numbers an event takes: one for each ping of a gossip round, and one for a probe. -/
def Runtime.draws (r : Runtime) : Event → Nat
  | .handle o clock _ (some frame) =>
    if frame.version ≠ protocolVersion then 0
    else
      let (shared, refuted) := r.shared.reconcile r.config.suspicionTimeout clock frame
      if refuted then ({ r with shared }.gossipDests o).2.length else 0
  | .reapSuspects o now =>
    let (shared, died) := r.shared.reapSuspects now
    if died then ({ r with shared }.gossipDests o).2.length else 0
  | .advanceProbe o now =>
    match r.probe with
    | none => 0
    | some probe =>
      if probe.deadline > now then 0
      else
        match probe.phase with
        | .direct => 0
        | .indirect => (({ r with probe := none }.markSuspect probe.target now).gossipDests o).2.length
  | .startProbe o _ => if r.probe.isSome then 0 else if (r.shared.livePeers o).isEmpty then 0 else 1
  | .gossipRound o => (r.gossipDests o).2.length
  | _ => 0

/-- The sequence numbers an event takes. -/
def Runtime.drawn (r : Runtime) (e : Event) : List UInt64 := numbersAfter r.seq (r.draws e)

/-! ## Networks -/

structure Network (ι : Type) where
  nodes : ι → Runtime
  sent : Sent

/-- A node takes a step, or one of its frames leaves late. A frame is built when it is sent, and other threads may
have changed the state since the step that sends it. -/
inductive Action (ι : Type) where
  | event (node : ι) (e : Event)
  | resend (node : ι) (o : HashOrder) (dest : SocketAddr) (frame : Frame)

namespace Network

variable {ι : Type}

def start (config : ι → Config) (id : ι → NodeId) (addr : ι → SocketAddr) (seed : ι → UInt64) : Network ι :=
  ⟨fun i => Runtime.new (config i) (id i) (addr i) (seed i), []⟩

/-- What an action sends. -/
def emits (net : Network ι) : Action ι → Sent
  | .event i e => ((net.nodes i).react e).2
  | .resend i o dest frame => [(dest, (net.nodes i).shared.snapshot o frame.seq frame.kind)]

def step [DecidableEq ι] (net : Network ι) (a : Action ι) : Network ι where
  nodes :=
    match a with
    | .event i e => Function.update net.nodes i ((net.nodes i).step e)
    | .resend _ _ _ _ => net.nodes
  sent := net.sent ++ net.emits a

/-- A node receives what was sent to an address it listens at, and resends what it has sent. -/
def Allows (listener : SocketAddr → Option ι) (net : Network ι) : Action ι → Prop
  | .event i (.handle _ _ _ (some frame)) => ∃ addr, listener addr = some i ∧ (addr, frame) ∈ net.sent
  | .event _ _ => True
  | .resend i _ dest frame => frame.sender = (net.nodes i).shared.me ∧ (dest, frame) ∈ net.sent

/-- The sequence numbers an action takes, with the node that takes them. -/
def drawnBy (net : Network ι) : Action ι → List (ι × UInt64)
  | .event i e => ((net.nodes i).drawn e).map (fun s => (i, s))
  | .resend _ _ _ _ => []

def drawnIn [DecidableEq ι] (net : Network ι) : List (Action ι) → List (ι × UInt64)
  | [] => []
  | a :: as => net.drawnBy a ++ drawnIn (net.step a) as

/-- No two nodes take one number, and no node's counter wraps around. -/
structure FreshNumbers [DecidableEq ι] (net : Network ι) (as : List (Action ι)) : Prop where
  across : ∀ i j s, (i, s) ∈ net.drawnIn as → (j, s) ∈ net.drawnIn as → i = j
  noWrap : ∀ i, (net.nodes i).seq.toNat + ((net.drawnIn as).filter (fun d => d.1 = i)).length < 2 ^ 64

end Network

end Pulsate.Cluster
