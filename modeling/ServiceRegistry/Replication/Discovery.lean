import ServiceRegistry.Peer

/-!
# The set of peers

Peers given by configuration: in order, each once, without the node itself.
-/

namespace ServiceRegistry.Replication

set_option autoImplicit false

def dropRepeats {α : Type} [DecidableEq α] : List α → List α
  | [] => []
  | [a] => [a]
  | a :: b :: rest => if a = b then dropRepeats (b :: rest) else a :: dropRepeats (b :: rest)

def peerSet (peers : List Peer) : List Peer := dropRepeats (peers.mergeSort Peer.le)

def parsePeers (texts : List String) (self : Option Peer) :
    Except Peer.ParseError (List Peer) := do
  let peers ← texts.mapM Peer.parse
  return peerSet (peers.filter fun p => some p ≠ self)

end ServiceRegistry.Replication
