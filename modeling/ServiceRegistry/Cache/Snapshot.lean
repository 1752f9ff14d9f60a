import ServiceRegistry.Registry.Views

/-!
# Snapshots

What readers see of the registry between two rebuilds: the catalog, and the changes that led
to it as far as the log still holds them.
-/

namespace ServiceRegistry

set_option autoImplicit false

structure Snapshot where
  version : Nat
  floor : Nat
  catalog : Catalog
  changes : List Change
  builtAt : Millis
  deriving DecidableEq, Repr

namespace Snapshot

def capture (r : Registry) (now : Millis) : Snapshot :=
  let catalog := r.catalog
  let window := r.log.since 0
  { version := catalog.version
    floor := window.floor
    catalog
    changes := window.changes.filter (·.version ≤ catalog.version)
    builtAt := now }

def covers (s : Snapshot) (version : Nat) : Bool := s.floor ≤ version && version ≤ s.version

/-- The changes above a version, or a request to start over if some are not known. -/
def delta (s : Snapshot) (version : Nat) : Delta :=
  if s.covers version then
    .changes version s.version s.catalog.hashCode (s.changes.filter (version < ·.version))
  else .startOver s.version

end Snapshot

end ServiceRegistry
