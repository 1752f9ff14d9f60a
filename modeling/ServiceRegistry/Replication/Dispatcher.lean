import ServiceRegistry.KeyMap
import ServiceRegistry.Replication.Worker

/-!
# The dispatcher

Every local operation is handed to the workers of all peers. The set of workers follows the set
of peers: workers that stay keep their queues and statistics.
-/

namespace ServiceRegistry.Replication

set_option autoImplicit false

structure PeerStatus where
  peer : String
  queued : Nat
  stats : PeerStats
  deriving DecidableEq, Repr

structure Dispatcher where
  settings : DispatcherSettings
  peers : List Peer
  workers : KeyMap Peer Worker := .empty

namespace Dispatcher

def enqueue (d : Dispatcher) (peer : Peer) (i : Item) : Dispatcher × List Event :=
  match d.workers.get? peer with
  | none => (d, [])
  | some w =>
    let (w, events) := w.push peer i
    ({ d with workers := d.workers.insert peer w }, events)

def enqueueAll (i : Item) : List Peer → Dispatcher → Dispatcher × List Event
  | [], d => (d, [])
  | peer :: rest, d =>
    let (d, events) := d.enqueue peer i
    let (d, more) := enqueueAll i rest d
    (d, events ++ more)

def replicate (d : Dispatcher) (i : Item) : Dispatcher × List Event :=
  enqueueAll i d.workers.keys d

def addWorker (capacity : Nat) (workers : KeyMap Peer Worker) (peer : Peer) : KeyMap Peer Worker :=
  if workers.contains peer then workers else workers.insert peer (.ofCapacity capacity)

def inSync (d : Dispatcher) : Bool :=
  d.workers.size == d.peers.eraseDups.length && d.peers.all fun p => d.workers.contains p

/-- Stops the workers of peers that are not wanted, and starts those that are missing. -/
def syncPeers (d : Dispatcher) : Dispatcher :=
  if d.inSync then d
  else
    let kept := d.workers.filter fun (peer, _) => d.peers.contains peer
    { d with workers := d.peers.foldl (addWorker d.settings.queueCapacity) kept }

def shutdown (d : Dispatcher) : Dispatcher := { d with workers := .empty }

/-- Whether there are peers and none of them is healthy. -/
def isIsolated (d : Dispatcher) : Bool :=
  !d.workers.isEmpty && d.workers.values.all fun w => !w.stats.healthy

def statuses (d : Dispatcher) : List PeerStatus :=
  (d.workers.entries.map fun (peer, w) => ⟨peer.display, w.queue.length, w.stats⟩).mergeSort
    fun a b => decide (a.peer ≤ b.peer)

end Dispatcher

end ServiceRegistry.Replication
