import ServiceRegistry.Replication.Item

/-!
# Events

What observers of a registry node are told.
-/

namespace ServiceRegistry

set_option autoImplicit false

inductive Event where
  | changed (version : Nat) (kind : ChangeKind) (operation : Operation) (app id : String)
    (replicated : Bool)
  | renewed (app id : String) (replicated : Bool)
  | evicted (app id : String)
  | evictionCycle (expired evicted : Nat) (suspended : Bool)
  | selfPreservationChanged (active : Bool)
  | replicationSent (peer : String) (items : Nat)
  | replicationFailed (peer : String) (operation : Operation) (reason : String)
  | replicationDropped (peer : String) (items : Nat)
  | cacheRebuilt (version : Nat)
  deriving DecidableEq, Repr

namespace Event

def isChange : Event → Bool
  | changed .. => true
  | evicted .. => true
  | _ => false

def peer? : Event → Option String
  | replicationSent peer _ => some peer
  | replicationFailed peer _ _ => some peer
  | replicationDropped peer _ => some peer
  | _ => none

end Event

end ServiceRegistry
