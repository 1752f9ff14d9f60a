import ServiceRegistry.Node.Basic

/-!
# Chores

A chore is due at some time, or as soon as there are events for it to read. Time here is the
time of the timers, in milliseconds, and not the clock that the registry reads.
-/

namespace ServiceRegistry

set_option autoImplicit false

inductive ChoreKind where
  | cache
  | eviction
  | renewals
  | recorder
  | discovery
  deriving DecidableEq, Repr

def Node.discoveryPeriod (n : Node) : Nat := (n.dispatcher.map (·.settings.refreshInterval)).getD 0

namespace Chore

def kind : Chore → ChoreKind
  | .cache .. => .cache
  | .eviction _ => .eviction
  | .renewals .. => .renewals
  | .recorder _ => .recorder
  | .discovery _ => .discovery

def due? (n : Node) (now : Nat) : Chore → Option Nat
  | .cache _ _ (some quiet) => some quiet
  | .cache events tick none =>
    if n.cacheSettings.mode = .onDirty ∧ n.events.hasNews events then some (min now tick)
    else some tick
  | .eviction tick => some tick
  | .renewals tick _ => some tick
  | .recorder events => if n.events.hasNews events then some now else none
  | .discovery tick => some tick

/-- Does a chore that is due once. -/
def perform (n : Node) (now : Nat) : Chore → Chore × Node
  | .cache events tick (some _) => (.cache (n.events.skim events) tick none, n.refreshCache.2)
  | .cache events tick none =>
    if tick ≤ now then
      (.cache events (tick + n.cacheSettings.refreshInterval) none, n.refreshCache.2)
    else
      match n.events.receive events with
      | (.message e, events) =>
        let quiet := if e.isChange then some (now + n.cacheSettings.debounce) else none
        (.cache events tick quiet, n)
      | (.lagged _, events) => (.cache events tick none, n.rebuildCache.2)
      | (.empty, events) => (.cache events tick none, n)
  | .eviction _ =>
    (.eviction (now + n.eviction.settings.interval), (n.evictionCycle .first).2)
  | .renewals tick window => (.renewals (tick + window) window, n.rotateRenewals)
  | .recorder events =>
    let (delivery, events) := n.events.receive events
    (.recorder events, { n with metrics := n.metrics.take delivery })
  | .discovery tick =>
    (.discovery (tick + n.discoveryPeriod), n.syncPeers)

end Chore

namespace Node

def addChore (n : Node) (chore : Chore) : Node := { n with chores := n.chores ++ [chore] }

/-- Adds a chore that is due again and again. One without a period is never due. -/
def addTimed (n : Node) (period : Nat) (chore : Chore) : Node :=
  if period = 0 then n else n.addChore chore

def startCache (n : Node) (now : Nat) : Node :=
  n.addTimed n.cacheSettings.refreshInterval (.cache n.events.subscribe now none)

def startEviction (n : Node) (now : Nat) : Node :=
  n.addTimed n.eviction.settings.interval (.eviction (now + n.eviction.settings.interval))

def startRenewals (n : Node) (now window : Nat) : Node :=
  n.addTimed window (.renewals (now + window) window)

def startRecorder (n : Node) : Node :=
  { n with metrics := n.metrics.registerAll }.addChore (.recorder n.events.subscribe)

def startDiscovery (n : Node) (now : Nat) : Node := n.addTimed n.discoveryPeriod (.discovery now)

def stopChore (n : Node) (kind : ChoreKind) : Node :=
  match n.chores.reverse.findIdx? (·.kind == kind) with
  | none => n
  | some i => { n with chores := n.chores.eraseIdx (n.chores.length - 1 - i) }

def doChore (n : Node) (now place : Nat) : Node :=
  match n.chores[place]? with
  | none => n
  | some chore =>
    let (chore, n) := chore.perform n now
    { n with chores := n.chores.set place chore }

end Node

end ServiceRegistry
