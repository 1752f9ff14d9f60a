import ServiceRegistry.Registry.Basic

/-!
# Reading the registry
-/

namespace ServiceRegistry.Registry

set_option autoImplicit false

def liveRecords (leases : KeyMap String (Lease Instance)) : List Instance :=
  (leases.values.filter fun l => !l.isEvicted).map (·.holder)

/-- The catalog of all held instances, expired ones included. -/
def catalog (r : Registry) : Catalog :=
  .build r.log.version <|
    (r.apps.entries.map fun (name, leases) => ⟨name, liveRecords leases⟩).filter
      fun a => !a.instances.isEmpty

def application? (r : Registry) (app : String) : Option Application :=
  (r.apps.get? (Text.upper app)).bind fun leases =>
    let a : Application := ⟨Text.upper app, liveRecords leases⟩
    if a.instances.isEmpty then none else some a.sorted

def lease? (r : Registry) (app id : String) : Option (Lease Instance) := r.held? (keyOf app id)

def instance? (r : Registry) (app id : String) : Option Instance :=
  (r.lease? app id).map (·.holder)

def override? (r : Registry) (app id : String) : Option Status := r.overrides.get? (keyOf app id)

def instanceCount (r : Registry) : Nat :=
  r.apps.values.foldr (fun leases n => leases.size + n) 0

def appCount (r : Registry) : Nat := r.apps.size

def expired (r : Registry) (now grace : Int) : List Key :=
  r.apps.entries.flatMap fun (app, leases) =>
    (leases.entries.filter fun (_, l) => l.isExpired now grace).map fun (id, _) => (app, id)

end ServiceRegistry.Registry
