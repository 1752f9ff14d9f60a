import ServiceRegistry.ChangeLog
import ServiceRegistry.Event
import ServiceRegistry.KeyMap
import ServiceRegistry.Lease
import ServiceRegistry.RenewalRate

/-!
# The registry

The leases by application and instance, the statuses imposed by operators, and the log of
changes. An application whose last lease is gone stays, empty, until it is pruned.
-/

namespace ServiceRegistry

set_option autoImplicit false

/-- Identity of an instance: its application, in upper case, and its id. -/
abbrev Key := String × String

/-- Who asks for an operation: a client, or a peer that tells of one of its own. -/
inductive Origin where
  | client
  | peer
  deriving DecidableEq, Repr

/-- What an operation does to the outside, in order: tell observers, or tell the peers. -/
inductive Effect where
  | emit (e : Event)
  | ship (i : Replication.Item)
  deriving DecidableEq, Repr

structure Activity where
  time : Millis
  app : String
  id : String
  deriving DecidableEq, Repr

structure RegistrySettings where
  /-- Lease for registrations that name none, in seconds. -/
  defaultLease : UInt64 := 90
  /-- Time that changes stay in the log, in seconds. -/
  retention : UInt64 := 180
  logCapacity : Nat := 100000
  activityCapacity : Nat := 1000
  deriving DecidableEq, Repr

structure Registry where
  settings : RegistrySettings
  startedAt : Millis
  apps : KeyMap String (KeyMap String (Lease Instance)) := .empty
  overrides : KeyMap Key Status := .empty
  log : ChangeLog
  renewals : RenewalRate := {}
  registered : List Activity := []
  cancelled : List Activity := []
  dirty : Bool := false

structure Response (α : Type) where
  answer : α
  registry : Registry
  effects : List Effect := []

namespace Registry

def start (settings : RegistrySettings) (now : Millis) : Registry :=
  { settings, startedAt := now, log := .ofCapacity settings.logCapacity }

/-- The lease stored under an upper-case application name, ended or not. -/
def stored? (r : Registry) (k : Key) : Option (Lease Instance) :=
  (r.apps.get? k.1).bind (·.get? k.2)

def store (r : Registry) (k : Key) (l : Lease Instance) : Registry :=
  { r with apps := r.apps.insert k.1 (((r.apps.get? k.1).getD .empty).insert k.2 l) }

def remove (r : Registry) (k : Key) : Registry :=
  match r.apps.get? k.1 with
  | none => r
  | some leases => { r with apps := r.apps.insert k.1 (leases.erase k.2) }

def held? (r : Registry) (k : Key) : Option (Lease Instance) :=
  (r.stored? k).filter fun l => !l.isEvicted

def keyOf (app id : String) : Key := (Text.upper app, id)

def remember (capacity : Nat) (activities : List Activity) (a : Activity) : List Activity :=
  let all := activities ++ [a]
  all.drop (all.length - capacity)

def record (r : Registry) (kind : ChangeKind) (record : Instance) (now : Millis) : Registry :=
  { r with log := r.log.append kind record now, dirty := true }

theorem stored?_store (r : Registry) (k k' : Key) (l : Lease Instance) :
    (r.store k l).stored? k' = if k = k' then some l else r.stored? k' := by
  obtain ⟨app, id⟩ := k
  obtain ⟨app', id'⟩ := k'
  by_cases ha : app = app'
  · subst ha
    by_cases hi : id = id'
    · simp [stored?, store, hi]
    · cases h : r.apps.get? app <;> simp [stored?, store, h, hi]
  · simp [stored?, store, ha]

theorem stored?_remove (r : Registry) (k k' : Key) :
    (r.remove k).stored? k' = if k = k' then none else r.stored? k' := by
  obtain ⟨app, id⟩ := k
  obtain ⟨app', id'⟩ := k'
  simp only [stored?, remove, Prod.mk.injEq]
  cases h : r.apps.get? app with
  | none =>
    by_cases ha : app = app'
    · subst ha
      simp [h]
    · simp [ha]
  | some leases =>
    by_cases ha : app = app'
    · subst ha
      simp [h]
    · simp [ha]

end Registry

end ServiceRegistry
