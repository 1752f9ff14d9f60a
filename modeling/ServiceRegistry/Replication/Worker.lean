import ServiceRegistry.Event
import ServiceRegistry.Peer
import ServiceRegistry.Replication.Failure
import ServiceRegistry.Replication.Queue

/-!
# Workers

Each peer has a worker, which gathers pending items for a while, sends them as one batch and
sends it again if it fails for a passing reason, each time after twice the delay. A peer is
unhealthy while its latest batch has come to nothing for such a reason.
-/

namespace ServiceRegistry.Replication

set_option autoImplicit false

/-- Times are in milliseconds. -/
structure DispatcherSettings where
  queueCapacity : Nat := 10000
  batchSize : Nat := 250
  batchingDelay : Nat := 500
  retries : Nat := 3
  backoff : Nat := 500
  refreshInterval : Nat := 30000
  deriving DecidableEq, Repr

abbrev Answer := Except Failure (List Outcome)

inductive Conclusion where
  | accepted (outcomes : List Outcome)
  | again (delay : Nat)
  | lost (failure : Failure)
  deriving DecidableEq, Repr

/-- The factor of the delay after a number of earlier attempts, of 32 bits. -/
def backoffFactor (attempt : Nat) : Nat := if attempt < 32 then 1 <<< attempt else UInt32.size - 1

def conclude (s : DispatcherSettings) (attempt : Nat) : Answer → Conclusion
  | .ok outcomes => .accepted outcomes
  | .error failure =>
    if failure.transient ∧ attempt < s.retries then .again (s.backoff * backoffFactor attempt)
    else .lost failure

structure PeerStats where
  healthy : Bool := true
  sentBatches : Nat := 0
  sentItems : Nat := 0
  failedBatches : Nat := 0
  droppedItems : Nat := 0
  deriving DecidableEq, Repr

namespace PeerStats

def count (s : PeerStats) (items : List Item) : Conclusion → PeerStats
  | .accepted _ =>
    { s with
      healthy := true, sentBatches := s.sentBatches + 1, sentItems := s.sentItems + items.length }
  | .again _ => s
  | .lost failure =>
    { s with healthy := s.healthy && !failure.transient, failedBatches := s.failedBatches + 1 }

end PeerStats

/-- What a worker is at: waiting for items, gathering more of them until some time, waiting for
the answer to a batch, or waiting to send it again. -/
inductive Phase where
  | idle
  | gathering (due : Nat)
  | sending (items : List Item) (attempt : Nat)
  | resting (items : List Item) (attempt : Nat) (due : Nat)
  deriving DecidableEq, Repr

structure Worker where
  queue : Queue
  stats : PeerStats := {}
  phase : Phase := .idle

namespace Worker

def ofCapacity (capacity : Nat) : Worker := { queue := .ofCapacity capacity }

def push (peer : Peer) (w : Worker) (i : Item) : Worker × List Event :=
  let (dropped, queue) := w.queue.push i
  ({ w with queue, stats := { w.stats with droppedItems := w.stats.droppedItems + dropped } },
   if dropped = 0 then [] else [.replicationDropped peer.display dropped])

/-- Takes the next batch from the queue. It is sent if there is one and the peer is wanted
still, and forgotten otherwise. -/
def takeBatch (s : DispatcherSettings) (wanted : Bool) (w : Worker) : Worker :=
  let (items, queue) := w.queue.drain s.batchSize
  { w with queue, phase := if items.isEmpty ∨ ¬ wanted then .idle else .sending items 0 }

def report (peer : Peer) (items : List Item) : Conclusion → List Event
  | .accepted _ => [.replicationSent peer.display items.length]
  | .again _ => []
  | .lost failure =>
    [.replicationFailed peer.display ((items.head?.map (·.operation)).getD .heartbeat)
      failure.message]

def settle (w : Worker) (now : Nat) (items : List Item) (attempt : Nat) (c : Conclusion) : Worker :=
  { w with
    stats := w.stats.count items c
    phase := match c with
      | .again delay => .resting items (attempt + 1) (now + delay)
      | _ => .idle }

end Worker

/-- What is done about the outcome of an item: send the registration that the peer lacks, or
adopt the newer record that it holds. -/
inductive Reaction where
  | resend (i : Item)
  | adopt (record : Instance) (lease : Option UInt64)
  deriving DecidableEq, Repr

def reaction? (i : Item) : Outcome → Option Reaction
  | .success => none
  | .notFound =>
    if i.operation = .heartbeat ∧ i.record.isSome then
      some (.resend { i with operation := .register })
    else none
  | .conflict record => record.map fun r => .adopt r i.lease
  | .rejected _ => none

/-- Reactions to the outcomes of a batch; what has no partner counts for nothing. -/
def reactions (items : List Item) (outcomes : List Outcome) : List Reaction :=
  (items.zip outcomes).filterMap fun (i, o) => reaction? i o

end ServiceRegistry.Replication
