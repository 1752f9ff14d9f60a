import ServiceRegistry.Catalog

/-!
# The change log

Every mutation of the registry gets the next version and an entry in the log. Entries leave at
the old end, by age or because the log is full; the floor is the highest version that has left.
-/

namespace ServiceRegistry

set_option autoImplicit false

structure ChangeLog where
  version : Nat := 0
  floor : Nat := 0
  /-- Retained entries, oldest first. -/
  entries : List Change := []
  capacity : Nat
  deriving DecidableEq, Repr

structure ChangeWindow where
  floor : Nat
  current : Nat
  changes : List Change
  deriving DecidableEq, Repr

namespace ChangeLog

def ofCapacity (capacity : Nat) : ChangeLog := { capacity := max capacity 1 }

def length (l : ChangeLog) : Nat := l.entries.length

/-- The floor once some entries have left: the version of the last of them. -/
def raise (floor : Nat) (left : List Change) : Nat :=
  match left.getLast? with
  | some c => c.version
  | none => floor

def shrink (l : ChangeLog) : ChangeLog :=
  let excess := l.entries.length - l.capacity
  { l with floor := raise l.floor (l.entries.take excess), entries := l.entries.drop excess }

def append (l : ChangeLog) (kind : ChangeKind) (record : Instance) (now : Millis) : ChangeLog :=
  let version := l.version + 1
  shrink { l with version, entries := l.entries ++ [⟨version, kind, now, record⟩] }

/-- Drops the oldest entries up to the first that is not older than the cutoff, and says how
many these were. -/
def purge (l : ChangeLog) (cutoff : Int) : ChangeLog × Nat :=
  let old := l.entries.takeWhile fun c => decide (c.time.toInt < cutoff)
  ({ l with floor := raise l.floor old, entries := l.entries.drop old.length }, old.length)

def since (l : ChangeLog) (version : Nat) : ChangeWindow :=
  { floor := l.floor, current := l.version, changes := l.entries.filter (version < ·.version) }

end ChangeLog

end ServiceRegistry
