import ServiceRegistry.Node.Chores
import ServiceRegistry.Replication.Discovery
import ServiceRegistry.Server.Settings

/-!
# Launching a node

A node with all its chores. Without peers in its settings it stands alone and has no dispatcher.
-/

namespace ServiceRegistry.Server

set_option autoImplicit false

/-- Width of the windows of the renewal rate, in milliseconds. -/
def renewalWindow : Nat := 60000

def Settings.dispatcher? (s : Settings) :
    Except Peer.ParseError (Option Replication.Dispatcher) := do
  if s.peers.isEmpty then return none
  let peers ← Replication.parsePeers s.peers s.advertise
  return some { settings := s.replication, peers }

def launch (s : Settings) (now : Millis) : Except Peer.ParseError Node := do
  let dispatcher ← s.dispatcher?
  let bare := Node.start
    { registry := s.registry, cache := s.cache, eviction := s.eviction } now
  let n := (bare.startRecorder).startRenewals 0 renewalWindow
  let n := match dispatcher with
    | none => n
    | some d => { n with dispatcher := some d, health := some .dispatcher }.startDiscovery 0
  return (n.startEviction 0).startCache 0

def shutdown (n : Node) : Node :=
  { n with dispatcher := n.dispatcher.map (·.shutdown), chores := [] }

end ServiceRegistry.Server
