import ServiceRegistry.Instance

/-!
# Replicated operations

Every local mutation is told to the peers as an item. A batch of items is answered with one
outcome for each, in the same order.
-/

namespace ServiceRegistry

set_option autoImplicit false

inductive Operation where
  | register
  | heartbeat
  | cancel
  | statusUpdate
  | deleteStatusOverride
  deriving DecidableEq, Repr

namespace Operation

def all : List Operation := [.register, .heartbeat, .cancel, .statusUpdate, .deleteStatusOverride]

def name : Operation → String
  | .register => "register"
  | .heartbeat => "heartbeat"
  | .cancel => "cancel"
  | .statusUpdate => "status_update"
  | .deleteStatusOverride => "delete_status_override"

end Operation

namespace Replication

/-- One local mutation. A heartbeat carries the record too, so that a peer that lost the
instance can be given it again. -/
structure Item where
  operation : Operation
  app : String
  id : String
  record : Option Instance := none
  status : Option Status := none
  lease : Option UInt64 := none
  dirtyAt : Millis := 0
  time : Millis
  deriving DecidableEq, Repr

def Item.of (operation : Operation) (r : Instance) (time : Millis) : Item :=
  { operation, app := r.app, id := r.id, record := some r, status := some r.status
    lease := some r.terms.duration, dirtyAt := r.dirtyAt, time }

def Item.key (i : Item) : String × String := (i.app, i.id)

/-- What the receiver made of an item. A conflict may carry the newer record it holds. -/
inductive Outcome where
  | success
  | notFound
  | conflict (record : Option Instance)
  | rejected (reason : String)
  deriving DecidableEq, Repr

namespace Outcome

def name : Outcome → String
  | .success => "success"
  | .notFound => "not_found"
  | .conflict _ => "conflict"
  | .rejected _ => "rejected"

end Outcome

end Replication

end ServiceRegistry
