/-!
# Failed shipments

A transient failure is worth another attempt, a permanent one is not.
-/

namespace ServiceRegistry.Replication

set_option autoImplicit false

structure Failure where
  peer : String
  reason : String
  transient : Bool
  deriving DecidableEq, Repr

def Failure.message (f : Failure) : String :=
  if f.transient then "transient failure replicating to " ++ f.peer ++ ": " ++ f.reason
  else "peer " ++ f.peer ++ " rejected replication batch: " ++ f.reason

end ServiceRegistry.Replication
