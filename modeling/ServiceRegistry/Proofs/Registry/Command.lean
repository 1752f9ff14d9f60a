import ServiceRegistry.Replication.Receive

/-! # Commands

The operations on registrations as data. What an operation answers and does depends on one
instance only, the one its key names.
-/

namespace ServiceRegistry

set_option autoImplicit false

inductive Command where
  | register (origin : Origin) (record : Instance) (duration : Option UInt64)
  | renew (origin : Origin) (app id : String) (dirtyAt : Option Millis)
  | cancel (origin : Origin) (app id : String)
  | evict (seen : Millis) (app id : String) (grace : Int)
  | updateStatus (origin : Origin) (app id : String) (s : Status) (dirtyAt : Option Millis)
  | deleteOverride (origin : Origin) (app id : String) (s : Status) (dirtyAt : Option Millis)
  deriving DecidableEq, Repr

inductive CommandAnswer where
  | registered (result : Except Invalid Unit)
  | renewed (answer : RenewalAnswer)
  | removed (found : Bool)
  | changed (verdict : Verdict)

namespace Command

def origin : Command → Origin
  | register origin .. => origin
  | renew origin .. => origin
  | cancel origin .. => origin
  | evict .. => .client
  | updateStatus origin .. => origin
  | deleteOverride origin .. => origin

def operation : Command → Operation
  | register .. => .register
  | renew .. => .heartbeat
  | cancel .. => .cancel
  | evict .. => .cancel
  | updateStatus .. => .statusUpdate
  | deleteOverride .. => .deleteStatusOverride

def key : Command → Key
  | register _ record _ => Registry.keyOf record.app record.id
  | renew _ app id _ => Registry.keyOf app id
  | cancel _ app id => Registry.keyOf app id
  | evict _ app id _ => Registry.keyOf app id
  | updateStatus _ app id _ _ => Registry.keyOf app id
  | deleteOverride _ app id _ _ => Registry.keyOf app id

end Command

namespace Registry

/-- Carries a command out. A registration that is refused leaves the registry as it is. -/
def perform (r : Registry) (now : Millis) : Command → Response CommandAnswer
  | .register origin record duration =>
    match r.register now origin record duration with
    | .ok s => Response.map (fun _ => .registered (.ok ())) s
    | .error e => { answer := .registered (.error e), registry := r }
  | .renew origin app id dirtyAt => Response.map .renewed (r.renew now origin app id dirtyAt)
  | .cancel origin app id => Response.map .removed (r.cancel now origin app id)
  | .evict seen app id grace => Response.map .removed (r.evict seen now app id grace)
  | .updateStatus origin app id s dirtyAt =>
    Response.map .changed (r.updateStatus now origin app id s dirtyAt)
  | .deleteOverride origin app id s dirtyAt =>
    Response.map .changed (r.deleteOverride now origin app id s dirtyAt)

end Registry

end ServiceRegistry
