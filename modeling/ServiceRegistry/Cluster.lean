import ServiceRegistry.Node.Chores

/-!
# Clusters

Several nodes under one timer. Batches travel between them, or meet a fate that is given in
advance. Time moves from one thing that is due to the next, and each of them is done as a whole.
-/

namespace ServiceRegistry

set_option autoImplicit false

open Replication

/-- What becomes of a batch on its way to a peer. -/
inductive Fate where
  | deliver
  | accept
  | fail (transient : Bool) (reason : String)
  | answer (outcomes : List Outcome)
  | late (delay : Nat) (fate : Fate)
  deriving DecidableEq, Repr

namespace Fate

def delay : Fate → Nat
  | late d fate => d + fate.delay
  | _ => 0

def last : Fate → Fate
  | late _ fate => fate.last
  | fate => fate

end Fate

structure Flight where
  sentAt : Nat
  due : Nat
  fate : Fate
  deriving DecidableEq, Repr

structure Shipment where
  sentAt : Nat
  sender : Nat
  peer : Peer
  items : List Item
  answer : Answer

def Shipment.le (a b : Shipment) : Bool :=
  (compareLex (compareOn (·.sentAt))
    (compareLex (compareOn (·.sender)) (compareOn (·.peer.display))) a b).isLE

structure Cluster where
  now : Nat := 0
  nodes : List Node
  places : List (String × Nat) := []
  fates : KeyMap String (List Fate) := .empty
  flights : KeyMap (Nat × Peer) Flight := .empty
  shipments : List Shipment := []

/-- Something that is due: a chore of a node, or the next move of one of its workers. -/
inductive Action where
  | chore (node place : Nat)
  | worker (node : Nat) (peer : Peer)
  deriving DecidableEq, Repr

namespace Cluster

def node? (c : Cluster) (i : Nat) : Option Node := c.nodes[i]?

def setNode (c : Cluster) (i : Nat) (n : Node) : Cluster := { c with nodes := c.nodes.set i n }

def worker? (c : Cluster) (i : Nat) (peer : Peer) : Option (Dispatcher × Worker) :=
  (c.node? i).bind fun n => n.dispatcher.bind fun d => (d.workers.get? peer).map (d, ·)

def setWorker (c : Cluster) (i : Nat) (peer : Peer) (w : Worker) : Cluster :=
  match c.node? i with
  | none => c
  | some n =>
    c.setNode i { n with
      dispatcher := n.dispatcher.map fun d => { d with workers := d.workers.insert peer w } }

def workerDue? (c : Cluster) (i : Nat) (peer : Peer) (w : Worker) : Option Nat :=
  match w.phase with
  | .idle => if w.queue.isEmpty then none else some c.now
  | .gathering due => some due
  | .sending .. => (c.flights.get? (i, peer)).map (·.due)
  | .resting _ _ due => some due

def choreActions (c : Cluster) (i : Nat) (n : Node) : List (Nat × Action) :=
  n.chores.zipIdx.filterMap fun (chore, place) =>
    (chore.due? n c.now).map (·, .chore i place)

def workerActions (c : Cluster) (i : Nat) (n : Node) : List (Nat × Action) :=
  (n.dispatcher.map (·.workers.entries)).getD [] |>.filterMap fun (peer, w) =>
    (c.workerDue? i peer w).map (·, .worker i peer)

def actions (c : Cluster) : List (Nat × Action) :=
  c.nodes.zipIdx.flatMap fun (n, i) => c.choreActions i n ++ c.workerActions i n

def earliest : List (Nat × Action) → Option (Nat × Action)
  | [] => none
  | a :: rest =>
    match earliest rest with
    | none => some a
    | some b => if b.1 < a.1 then some b else some a

def launch (c : Cluster) (i : Nat) (peer : Peer) : Cluster :=
  let waiting := (c.fates.get? peer.display).getD []
  let fate := waiting.head?.getD .deliver
  { c with
    fates := if waiting.isEmpty then c.fates else c.fates.insert peer.display waiting.tail
    flights := c.flights.insert (i, peer) ⟨c.now, c.now + fate.delay, fate.last⟩ }

def deliver (c : Cluster) (peer : Peer) (items : List Item) : Answer × Cluster :=
  let target := (c.places.lookup peer.display).bind fun j => (c.node? j).map (j, ·)
  match target with
  | none => (Except.error { peer := peer.display, reason := "unknown node", transient := true }, c)
  | some (j, n) =>
    let (outcomes, n) := n.receiveAll items
    (.ok outcomes, c.setNode j n)

def meet (c : Cluster) (peer : Peer) (items : List Item) : Fate → Answer × Cluster
  | .deliver | .late .. => c.deliver peer items
  | .accept => (.ok (items.map fun _ => .success), c)
  | .fail transient reason => (Except.error { peer := peer.display, reason, transient }, c)
  | .answer outcomes => (.ok outcomes, c)

def conclude (c : Cluster) (i : Nat) (peer : Peer) (items : List Item) (attempt : Nat)
    (answer : Answer) : Cluster :=
  match c.worker? i peer with
  | none => c
  | some (d, w) =>
    let conclusion := Replication.conclude d.settings attempt answer
    let c := c.setWorker i peer (w.settle c.now items attempt conclusion)
    match c.node? i with
    | none => c
    | some n =>
      let n := n.emitAll (Worker.report peer items conclusion)
      let n := match conclusion with
        | .accepted outcomes => (reactions items outcomes).foldl (·.react peer) n
        | _ => n
      c.setNode i n

def land (c : Cluster) (i : Nat) (peer : Peer) (items : List Item) (attempt : Nat) : Cluster :=
  match c.flights.get? (i, peer) with
  | none => c
  | some flight =>
    let (answer, c) := c.meet peer items flight.fate
    let shipment : Shipment := { sentAt := flight.sentAt, sender := i, peer, items, answer }
    let c := { c with
      flights := c.flights.erase (i, peer), shipments := c.shipments ++ [shipment] }
    c.conclude i peer items attempt answer

def move (c : Cluster) (i : Nat) (peer : Peer) : Cluster :=
  match c.worker? i peer with
  | none => c
  | some (d, w) =>
    match w.phase with
    | .idle =>
      c.setWorker i peer { w with phase := .gathering (c.now + d.settings.batchingDelay) }
    | .gathering _ =>
      let w := w.takeBatch d.settings (d.peers.contains peer)
      let c := c.setWorker i peer w
      match w.phase with
      | .sending .. => c.launch i peer
      | _ => c
    | .resting items attempt _ =>
      (c.setWorker i peer { w with phase := .sending items attempt }).launch i peer
    | .sending items attempt => c.land i peer items attempt

def perform (c : Cluster) : Action → Cluster
  | .chore i place =>
    match c.node? i with
    | none => c
    | some n => c.setNode i (n.doChore c.now place)
  | .worker i peer => c.move i peer

/-- Does everything that is due up to some time, in at most `budget` actions. -/
def advance : Nat → Nat → Cluster → Cluster
  | 0, _, c => c
  | budget + 1, goal, c =>
    match earliest c.actions with
    | none => { c with now := goal }
    | some (due, action) =>
      if due ≤ goal then advance budget goal ({ c with now := max c.now due }.perform action)
      else { c with now := goal }

/-- More actions than any cluster of sensible settings needs for a span of time. -/
def budget : Nat := 1000000

def run (c : Cluster) (span : Nat) : Cluster := advance budget (c.now + span) c

def settle (c : Cluster) : Cluster := c.run 0

end Cluster

end ServiceRegistry
