import Mathlib.Data.Finset.Sort
import Pulsate.Lib.OrdMap
import Pulsate.Lib.Run
import Pulsate.Std.Net
import Pulsate.Std.Time

/-!
# The gossip node (`pulsate-cluster`)

The state a node keeps about its peers, the frames it exchanges, and every step of the runtime that
reads or writes that state. Times are numbers of nanoseconds; sending is an output of a step.
-/

namespace Pulsate.Cluster

open Pulsate.Lib

abbrev NodeId := Str

abbrev Instant := Nat

/-! ## Membership and the replicated counter (`lib.rs`) -/

structure Membership where
  me : NodeId
  nodes : Finset NodeId
  deriving DecidableEq

namespace Membership

def new (me : NodeId) : Membership := ⟨me, {me}⟩

def join (m : Membership) (node : NodeId) : Membership := { m with nodes := insert node m.nodes }

def leave (m : Membership) (node : NodeId) : Membership :=
  if node ≠ m.me then { m with nodes := m.nodes.erase node } else m

def members (m : Membership) : List NodeId := m.nodes.sort (· ≤ ·)

def leader (m : Membership) : Option NodeId := m.members.head?

def isLeader (m : Membership) : Bool := m.leader == some m.me

end Membership

/-- Arithmetic on `u64` wraps in a release build. -/
def u64 (n : Nat) : Nat := n % 2 ^ 64

structure GCounter where
  counts : OrdMap NodeId Nat
  deriving DecidableEq

namespace GCounter

def new : GCounter := ⟨∅⟩

def incr (c : GCounter) (node : NodeId) (n : Nat) : GCounter :=
  ⟨c.counts.alter node (fun old => u64 (old.getD 0 + n))⟩

def value (c : GCounter) : Nat := u64 c.counts.values.sum

def merge (c other : GCounter) : GCounter :=
  ⟨other.counts.entries.foldl (fun m e => m.alter e.1 (fun old => max (old.getD 0) e.2)) c.counts⟩

end GCounter

/-! ## The wire format (`gossip/wire.rs`) -/

def protocolVersion : Nat := 1

inductive MemberState where
  | alive
  | suspect
  | dead
  deriving DecidableEq, Repr

def MemberState.rank : MemberState → Nat
  | .alive => 0
  | .suspect => 1
  | .dead => 2

structure MemberUpdate where
  node : NodeId
  addr : SocketAddr
  incarnation : Nat
  state : MemberState
  deriving DecidableEq, Repr

inductive Kind where
  | ping
  | ack
  | pingReq (target : SocketAddr)
  deriving DecidableEq, Repr

structure Frame where
  version : Nat
  sender : NodeId
  senderAddr : SocketAddr
  seq : UInt64
  kind : Kind
  updates : List MemberUpdate
  counter : GCounter
  deriving DecidableEq

/-! ## State (`gossip/mod.rs`) -/

structure Config where
  seeds : List SocketAddr
  probeTimeout : Nat
  suspicionTimeout : Nat
  indirectProbes : Nat
  gossipFanout : Nat
  deriving DecidableEq, Repr

structure Peer where
  addr : SocketAddr
  incarnation : Nat
  state : MemberState
  suspectDeadline : Option Instant
  deriving DecidableEq, Repr

structure Shared where
  me : NodeId
  localAddr : SocketAddr
  incarnation : Nat
  membership : Membership
  counter : GCounter
  peers : OrdMap NodeId Peer
  deriving DecidableEq

inductive ProbePhase where
  | direct
  | indirect
  deriving DecidableEq, Repr

structure Probe where
  seq : UInt64
  target : NodeId
  targetAddr : SocketAddr
  phase : ProbePhase
  deadline : Instant
  deriving DecidableEq, Repr

structure Relay where
  origin : SocketAddr
  target : SocketAddr
  expire : Instant
  deriving DecidableEq, Repr

structure Runtime where
  config : Config
  shared : Shared
  rng : UInt64
  seq : UInt64
  probe : Option Probe
  relays : OrdMap Nat Relay
  roundRobin : UInt64
  deriving DecidableEq

/-- The order in which a hash map hands out its entries: some rearrangement of them, chosen anew for
every step. -/
structure HashOrder where
  order : List (NodeId × Peer) → List (NodeId × Peer)
  perm : ∀ l, (order l).Perm l

def HashOrder.byKey : HashOrder := ⟨id, fun l => List.Perm.refl l⟩

namespace Shared

def new (me : NodeId) (localAddr : SocketAddr) : Shared :=
  { me, localAddr, incarnation := 0, membership := Membership.new me, counter := GCounter.new,
    peers := ∅ }

def iter (s : Shared) (o : HashOrder) : List (NodeId × Peer) := o.order s.peers.entries

def snapshot (s : Shared) (o : HashOrder) (seq : UInt64) (kind : Kind) : Frame :=
  { version := protocolVersion
    sender := s.me
    senderAddr := s.localAddr
    seq
    kind
    updates := ⟨s.me, s.localAddr, s.incarnation, .alive⟩ ::
      (s.iter o).map (fun e => ⟨e.1, e.2.addr, e.2.incarnation, e.2.state⟩)
    counter := s.counter }

/-- Mark a peer suspect, only from alive, and arm its deadline. -/
def markSuspect (s : Shared) (timeout : Nat) (node : NodeId) (now : Instant) : Shared :=
  match s.peers.get? node with
  | some peer =>
    if peer.state = .alive then
      let peer := { peer with state := .suspect, suspectDeadline := some (now + timeout) }
      { s with peers := s.peers.insert node peer }
    else s
  | none => s

def markAlive (s : Shared) (node : NodeId) : Shared :=
  match s.peers.get? node with
  | some peer =>
    if peer.state ≠ .dead then
      { s with
        peers := s.peers.insert node { peer with state := .alive, suspectDeadline := none }
        membership := s.membership.join node }
    else s
  | none => s

/-- Whether `reap_suspects` declares this peer dead at `now`. -/
def expired (now : Instant) (p : Peer) : Bool :=
  p.state == .suspect && p.suspectDeadline.any (· ≤ now)

/-- The state after the reap, and whether any peer died. -/
def reapSuspects (s : Shared) (now : Instant) : Shared × Bool :=
  let dead := (s.peers.entries.filter (fun e => expired now e.2)).map Prod.fst
  ({ s with
      peers := s.peers.mapVal (fun p =>
        if expired now p then { p with state := .dead, suspectDeadline := none } else p)
      membership := dead.foldl Membership.leave s.membership },
    !dead.isEmpty)

/-- One member update; the flag tells whether it made this node refute its own death. -/
def applyUpdate (s : Shared) (timeout : Nat) (now : Instant) (u : MemberUpdate) : Shared × Bool :=
  if u.node = s.me then
    if (u.state = .suspect ∨ u.state = .dead) ∧ u.incarnation ≥ s.incarnation then
      ({ s with incarnation := u64 (u.incarnation + 1) }, true)
    else (s, false)
  else
    match s.peers.get? u.node with
    | none =>
      let suspectDeadline := match u.state with
        | .suspect => some (now + timeout)
        | _ => none
      let peers := s.peers.insert u.node ⟨u.addr, u.incarnation, u.state, suspectDeadline⟩
      if u.state ≠ .dead then
        ({ s with peers, membership := s.membership.join u.node }, false)
      else ({ s with peers }, false)
    | some peer =>
      if u.incarnation > peer.incarnation ∨
          (u.incarnation = peer.incarnation ∧ u.state.rank > peer.state.rank) then
        match u.state with
        | .alive =>
          ({ s with
              peers := s.peers.insert u.node ⟨u.addr, u.incarnation, .alive, none⟩
              membership := s.membership.join u.node }, false)
        | .suspect =>
          ({ s with
              peers := s.peers.insert u.node
                ⟨u.addr, u.incarnation, .suspect, some (now + timeout)⟩
              membership := s.membership.join u.node }, false)
        | .dead =>
          ({ s with
              peers := s.peers.insert u.node ⟨u.addr, u.incarnation, .dead, none⟩
              membership := s.membership.leave u.node }, false)
      else (s, false)

/-- The updates of a frame in order. Every update reads the clock for itself: `clock n` is its reading
when `n` updates are still to come. -/
def applyUpdates (timeout : Nat) (clock : Nat → Instant) : Shared → List MemberUpdate → Shared × Bool
  | s, [] => (s, false)
  | s, u :: us =>
    let (s₁, r₁) := s.applyUpdate timeout (clock us.length) u
    let (s₂, r₂) := applyUpdates timeout clock s₁ us
    (s₂, r₁ || r₂)

def reconcile (s : Shared) (timeout : Nat) (clock : Nat → Instant) (frame : Frame) : Shared × Bool :=
  let (s', refuted) := applyUpdates timeout clock s frame.updates
  ({ s' with counter := s'.counter.merge frame.counter }, refuted)

/-- The peers `start_probe` and `gossip_round` may address. -/
def livePeers (s : Shared) (o : HashOrder) : List (NodeId × Peer) :=
  (s.iter o).filter (fun e => e.2.state ≠ .dead)

end Shared

/-! ## Random choices -/

def rngNext (x : UInt64) : UInt64 :=
  let x := x ^^^ (x <<< 13)
  let x := x ^^^ (x >>> 7)
  x ^^^ (x <<< 17)

def swap {α : Type} (l : List α) (i j : Nat) : List α :=
  match l[i]?, l[j]? with
  | some x, some y => (l.set i y).set j x
  | _, _ => l

def shuffle {α : Type} (rng : UInt64) (l : List α) : UInt64 × List α :=
  ((List.range (l.length - 1)).reverse.map (· + 1)).foldl
    (fun (acc : UInt64 × List α) i =>
      let rng := rngNext acc.1
      (rng, swap acc.2 i (rng.toNat % (i + 1))))
    (rng, l)

/-! ## Steps of the runtime -/

/-- A step's result: the new runtime and the frames it sent, in order. -/
abbrev Sent := List (SocketAddr × Frame)

namespace Runtime

def new (config : Config) (me : NodeId) (localAddr : SocketAddr) (seed : UInt64) : Runtime :=
  let rng := rngNext seed
  { config, shared := Shared.new me localAddr, rng, seq := rng, probe := none, relays := ∅,
    roundRobin := 0 }

def nextSeq (r : Runtime) : Runtime := { r with seq := r.seq + 1 }

def send (r : Runtime) (o : HashOrder) (addr : SocketAddr) (seq : UInt64) (kind : Kind) : Sent :=
  [(addr, r.shared.snapshot o seq kind)]

/-- Up to `gossip_fanout` live peers in random order, then the seeds not among them. -/
def gossipDests (r : Runtime) (o : HashOrder) : UInt64 × List SocketAddr :=
  let (rng, dests) := shuffle r.rng ((r.shared.livePeers o).map (·.2.addr))
  let dests := dests.take r.config.gossipFanout
  (rng, r.config.seeds.foldl (fun ds seed => if seed ∈ ds then ds else ds ++ [seed]) dests)

def pingAll (o : HashOrder) : Runtime → List SocketAddr → Runtime × Sent
  | r, [] => (r, [])
  | r, addr :: dests =>
    let r := r.nextSeq
    let (r', sent) := pingAll o r dests
    (r', r.send o addr r.seq .ping ++ sent)

def gossipRound (r : Runtime) (o : HashOrder) : Runtime × Sent :=
  let (rng, dests) := r.gossipDests o
  pingAll o { r with rng } dests

def pickIndirect (r : Runtime) (o : HashOrder) (target : SocketAddr) : Runtime × List SocketAddr :=
  let helpers := ((r.shared.iter o).filter
    (fun e => e.2.state = .alive ∧ e.2.addr ≠ target)).map (·.2.addr)
  let (rng, helpers) := shuffle r.rng helpers
  ({ r with rng }, helpers.take r.config.indirectProbes)

def reapSuspects (r : Runtime) (o : HashOrder) (now : Instant) : Runtime × Sent :=
  let (shared, died) := r.shared.reapSuspects now
  let r := { r with shared }
  if died then r.gossipRound o else (r, [])

def markSuspect (r : Runtime) (node : NodeId) (now : Instant) : Runtime :=
  { r with shared := r.shared.markSuspect r.config.suspicionTimeout node now }

def markAlive (r : Runtime) (node : NodeId) : Runtime :=
  { r with shared := r.shared.markAlive node }

def advanceProbe (r : Runtime) (o : HashOrder) (now : Instant) : Runtime × Sent :=
  match r.probe with
  | none => (r, [])
  | some probe =>
    if probe.deadline > now then (r, [])
    else
      match probe.phase with
      | .direct =>
        let (r, helpers) := r.pickIndirect o probe.targetAddr
        let sent := helpers.flatMap
          (fun addr => r.send o addr probe.seq (.pingReq probe.targetAddr))
        let probe := { probe with phase := .indirect, deadline := now + r.config.probeTimeout }
        ({ r with probe := some probe }, sent)
      | .indirect => ({ r with probe := none }.markSuspect probe.target now).gossipRound o

def startProbe (r : Runtime) (o : HashOrder) (now : Instant) : Runtime × Sent :=
  if r.probe.isSome then (r, [])
  else
    let candidates := ((r.shared.livePeers o).map (fun e => (e.1, e.2.addr))).mergeSort
      (fun a b => a.1 ≤ b.1)
    match candidates[r.roundRobin.toNat % candidates.length]? with
    | none => (r, [])
    | some (node, addr) =>
      let r := { r with roundRobin := r.roundRobin + 1 }.nextSeq
      ({ r with probe := some ⟨r.seq, node, addr, .direct, now + r.config.probeTimeout⟩ },
        r.send o addr r.seq .ping)

/-- The first half of `handle_ack`: an ack with the sequence number of the outstanding probe. -/
def completeProbe (r : Runtime) (seq : UInt64) : Runtime :=
  match r.probe with
  | some probe => if probe.seq = seq then { r with probe := none }.markAlive probe.target else r
  | none => r

/-- The second half: pass the ack on to the node this one probed for. -/
def forwardAck (r : Runtime) (o : HashOrder) (frame : Frame) : Runtime × Sent :=
  match r.relays.get? frame.seq.toNat with
  | some relay =>
    let r := { r with relays := r.relays.erase frame.seq.toNat }
    if relay.target = frame.senderAddr then (r, r.send o relay.origin frame.seq .ack) else (r, [])
  | none => (r, [])

def handleAck (r : Runtime) (o : HashOrder) (frame : Frame) : Runtime × Sent :=
  (r.completeProbe frame.seq).forwardAck o frame

/-- A received datagram: `none` when `Frame::decode` rejects its bytes. -/
def handle (r : Runtime) (o : HashOrder) (clock : Nat → Instant) (now : Instant)
    (datagram : Option Frame) : Runtime × Sent :=
  match datagram with
  | none => (r, [])
  | some frame =>
    if frame.version ≠ protocolVersion then (r, [])
    else
      let (shared, refuted) := r.shared.reconcile r.config.suspicionTimeout clock frame
      let r := { r with shared }
      let (r, gossiped) := if refuted then r.gossipRound o else (r, [])
      match frame.kind with
      | .ping => (r, gossiped ++ r.send o frame.senderAddr frame.seq .ack)
      | .pingReq target =>
        let relay := ⟨frame.senderAddr, target, now + r.config.probeTimeout * 2⟩
        let r := { r with relays := r.relays.insert frame.seq.toNat relay }
        (r, gossiped ++ r.send o target frame.seq .ping)
      | .ack =>
        let (r, sent) := r.handleAck o frame
        (r, gossiped ++ sent)

/-- `Cluster::incr`. -/
def incr (r : Runtime) (n : Nat) : Runtime :=
  { r with shared := { r.shared with counter := r.shared.counter.incr r.shared.me n } }

/-- The relays dropped by the event loop once their time is over. -/
def expireRelays (r : Runtime) (now : Instant) : Runtime :=
  let relays := ⟨r.relays.entries.filter (fun e => e.2.expire > now), r.relays.sorted.filter _⟩
  { r with relays }

end Runtime

/-- What can happen at a node, in any order and at any times. -/
inductive Event where
  | handle (o : HashOrder) (clock : Nat → Instant) (now : Instant) (datagram : Option Frame)
  | reapSuspects (o : HashOrder) (now : Instant)
  | advanceProbe (o : HashOrder) (now : Instant)
  | startProbe (o : HashOrder) (now : Instant)
  | gossipRound (o : HashOrder)
  | markSuspect (node : NodeId) (now : Instant)
  | markAlive (node : NodeId)
  | expireRelays (now : Instant)
  | incr (n : Nat)

def Runtime.react (r : Runtime) : Event → Runtime × Sent
  | .handle o clock now datagram => r.handle o clock now datagram
  | .reapSuspects o now => r.reapSuspects o now
  | .advanceProbe o now => r.advanceProbe o now
  | .startProbe o now => r.startProbe o now
  | .gossipRound o => r.gossipRound o
  | .markSuspect node now => (r.markSuspect node now, [])
  | .markAlive node => (r.markAlive node, [])
  | .expireRelays now => (r.expireRelays now, [])
  | .incr n => (r.incr n, [])

def Runtime.step (r : Runtime) (e : Event) : Runtime := (r.react e).1

/-! ## The history of a run -/

/-- An event of the loop: a peer is marked suspect or alive from within one of these, never by itself. -/
def Event.OfLoop : Event → Prop
  | .markSuspect _ _ => False
  | .markAlive _ => False
  | _ => True

/-- The event handles an ack with this number. -/
def Event.Acks (seq : UInt64) : Event → Prop
  | .handle _ _ _ (some frame) => frame.version = protocolVersion ∧ frame.kind = .ack ∧ frame.seq = seq
  | _ => False

/-- The peers as they are recorded from a reading of the clock on. -/
structure Moment where
  time : Instant
  peers : OrdMap NodeId Peer

/-- One moment for each update of a frame. -/
def Shared.moments (timeout : Nat) (clock : Nat → Instant) : Shared → List MemberUpdate → List Moment
  | _, [] => []
  | s, u :: us =>
    let s := (s.applyUpdate timeout (clock us.length) u).1
    ⟨clock us.length, s.peers⟩ :: moments timeout clock s us

/-- The moments of an event, in order. Those without any leave the peers as they are. -/
def Runtime.moments (r : Runtime) : Event → List Moment
  | .handle o clock now (some frame) =>
    if frame.version ≠ protocolVersion then []
    else
      Shared.moments r.config.suspicionTimeout clock r.shared frame.updates ++
        [⟨now, (r.handle o clock now (some frame)).1.shared.peers⟩]
  | .reapSuspects o now => [⟨now, (r.reapSuspects o now).1.shared.peers⟩]
  | .advanceProbe o now => [⟨now, (r.advanceProbe o now).1.shared.peers⟩]
  | _ => []

def Runtime.history : Runtime → List Event → List Moment
  | _, [] => []
  | r, e :: es => r.moments e ++ history (r.step e) es

/-- The probe that is outstanding after the events: one of them began it at `start`, it has been outstanding ever
since, and no ack with its number has been handled. -/
def Runtime.ProbedSince (r : Runtime) (es : List Event) (probe : Probe) (start : Instant) : Prop :=
  ∃ before o after, es = before ++ .startProbe o start :: after ∧ (run Runtime.step r before).probe = none ∧
    (∀ mid, mid <+: after → ∃ p, (run Runtime.step r (before ++ .startProbe o start :: mid)).probe = some p ∧
      p.seq = probe.seq ∧ p.target = probe.target) ∧
    ∀ e ∈ after, ¬ e.Acks probe.seq

/-- From the moment `since` on, and at every moment after it, the node has been recorded suspect at one incarnation. -/
def SuspectSince (history : List Moment) (node : NodeId) (incarnation : Nat) (since : Instant) : Prop :=
  ∃ earlier first later, history = earlier ++ first :: later ∧ first.time = since ∧
    ∀ m ∈ first :: later, ∃ p, m.peers.get? node = some p ∧ p.state = .suspect ∧ p.incarnation = incarnation

/-- The test by which an update replaces a record. -/
def MemberUpdate.Supersedes (u : MemberUpdate) (p : Peer) : Prop :=
  u.incarnation > p.incarnation ∨ (u.incarnation = p.incarnation ∧ u.state.rank > p.state.rank)

instance (u : MemberUpdate) (p : Peer) : Decidable (u.Supersedes p) := inferInstanceAs (Decidable (_ ∨ _))

/-- What may make a node record another one, after the events, suspect or dead: its own detector, its own timer, or
an update it is told that supersedes its record or introduces the peer. -/
inductive Runtime.Cause (r : Runtime) (es : List Event) (node : NodeId) (recorded : Peer) : Event → Prop
  | unanswered {o : HashOrder} {now start : Instant} {probe : Probe} {p : Peer}
      (hbefore : (run Runtime.step r es).shared.peers.get? node = some p) (halive : p.state = .alive)
      (hafter : recorded.state = .suspect) (hprobe : (run Runtime.step r es).probe = some probe)
      (htarget : probe.target = node) (hsince : r.ProbedSince es probe start)
      (htime : start + 2 * r.config.probeTimeout ≤ now) : Cause r es node recorded (.advanceProbe o now)
  | outlasted {o : HashOrder} {now since : Instant} (hafter : recorded.state = .dead)
      (hsince : SuspectSince (r.history es) node recorded.incarnation since)
      (htime : since + r.config.suspicionTimeout ≤ now) : Cause r es node recorded (.reapSuspects o now)
  | told {o : HashOrder} {clock : Nat → Instant} {now : Instant} {frame : Frame} {us vs : List MemberUpdate}
      {u : MemberUpdate} (hversion : frame.version = protocolVersion) (hupdates : frame.updates = us ++ u :: vs)
      (hnode : u.node = node) (hstate : u.state = recorded.state) (hincarnation : u.incarnation = recorded.incarnation)
      (hsupersedes : ∀ p, (Shared.applyUpdates r.config.suspicionTimeout (fun n => clock (n + (vs.length + 1)))
        (run Runtime.step r es).shared us).1.peers.get? node = some p → u.Supersedes p) :
      Cause r es node recorded (.handle o clock now (some frame))

/-! ## Deliveries

Frames as they reach one node: in which order, how often and in which portions. -/

/-- How a snapshot reaches a node: what its sender writes into it, and what the receiver reads while it handles it. -/
structure Hearing where
  listed : HashOrder
  seq : UInt64
  kind : Kind
  order : HashOrder
  clock : Nat → Instant
  now : Instant

/-- The runtime after it has handled a snapshot of another one. -/
def Runtime.hears (r t : Runtime) (h : Hearing) : Runtime :=
  (r.handle h.order h.clock h.now (some (t.shared.snapshot h.listed h.seq h.kind))).1

/-- The snapshot answers the outstanding probe, and that is one of the node. -/
def Runtime.Completes (r : Runtime) (h : Hearing) (node : NodeId) : Prop :=
  h.kind = .ack ∧ ∃ p ∈ r.probe, p.seq = h.seq ∧ p.target = node

/-- Reconciles with the frames in order, each with its own readings of the clock. -/
def Shared.deliver (s : Shared) (timeout : Nat) (ds : List ((Nat → Instant) × Frame)) : Shared :=
  ds.foldl (fun s d => (s.reconcile timeout d.1 d.2).1) s

/-- Two deliveries of the same reports: in another order, with some of them repeated, or with two frames sent as
one that has the updates and the counters of both. -/
inductive Redelivered : List Frame → List Frame → Prop
  | perm {fs gs : List Frame} (h : fs.Perm gs) : Redelivered fs gs
  | again {f : Frame} {fs : List Frame} (h : f ∈ fs) : Redelivered fs (f :: fs)
  | regroup {f g h : Frame} {fs : List Frame} (hupdates : h.updates = f.updates ++ g.updates)
      (hcounter : h.counter = f.counter.merge g.counter) : Redelivered (f :: g :: fs) (h :: fs)
  | symm {fs gs : List Frame} (h : Redelivered fs gs) : Redelivered gs fs
  | trans {fs gs hs : List Frame} (h₁ : Redelivered fs gs) (h₂ : Redelivered gs hs) : Redelivered fs hs

/-- Every member other than the node itself is a known peer. -/
structure Shared.Tracked (s : Shared) : Prop where
  owner : s.membership.me = s.me
  known : ∀ n ∈ s.membership.nodes, n ≠ s.me → (s.peers.get? n).isSome

/-! ## Overflow -/

/-- Whether an update panics: it takes this node past its last incarnation, which only a build with overflow checks
notices, or it makes another node suspect until a time that no `Instant` reaches. -/
def Shared.updateOverflows (s : Shared) (timeout : Nat) (now : Instant) (u : MemberUpdate) : Bool :=
  if u.node = s.me then
    decide (u.state ≠ .alive ∧ u.incarnation ≥ s.incarnation ∧ u.incarnation + 1 ≥ 2 ^ 64)
  else
    decide (u.state = .suspect) && (s.peers.get? u.node).all (fun p => decide (u.Supersedes p)) &&
      decide (now + timeout ≥ instantEnd)

def Shared.overflows (timeout : Nat) (clock : Nat → Instant) : Shared → List MemberUpdate → Bool
  | _, [] => false
  | s, u :: us =>
    s.updateOverflows timeout (clock us.length) u ||
      Shared.overflows timeout clock (s.applyUpdate timeout (clock us.length) u).1 us

/-- Whether handling a frame panics, in its updates or over the time that a relay lasts. -/
def Runtime.overflows (r : Runtime) (clock : Nat → Instant) (now : Instant) (frame : Frame) : Bool :=
  frame.version == protocolVersion &&
    (Shared.overflows r.config.suspicionTimeout clock r.shared frame.updates ||
      match frame.kind with
      | .pingReq _ => decide (now + r.config.probeTimeout * 2 ≥ instantEnd)
      | _ => false)

end Pulsate.Cluster
