import ServiceRegistry.Registry.Basic
import ServiceRegistry.Validation

/-!
# Mutations of the registry

An operation reads the clock once, an eviction twice. It answers, changes the registry, and tells
observers and peers; operations that come from a peer are not told to peers again. Between two
records of an instance the one changed later at its origin wins.
-/

namespace ServiceRegistry

set_option autoImplicit false

inductive Verdict where
  | success
  | notFound
  | conflict
  deriving DecidableEq, Repr

/-- Answer to a heartbeat. In a conflict the caller's record is older than the one given. -/
inductive RenewalAnswer where
  | renewed
  | notFound
  | conflict (record : Instance)
  deriving DecidableEq, Repr

namespace Registry

def shipments (origin : Origin) (operation : Operation) (r : Instance) (lease : UInt64)
    (now : Millis) : List Effect :=
  match origin with
  | .client => [.ship { Replication.Item.of operation r now with lease := some lease }]
  | .peer => []

/-- An override that says something: `unknown` imposes nothing. -/
def imposed (r : Instance) : Option Status := r.overridden.filter (· ≠ .unknown)

/-- Brings the overrides and a registrant into agreement. A peer's record carries the state at
its origin, so its override replaces the stored one. Otherwise a stored override wins. -/
def settleOverride (overrides : KeyMap Key Status) (origin : Origin) (r : Instance) :
    KeyMap Key Status × Instance :=
  match origin, overrides.get? r.key, imposed r with
  | .peer, _, some s => (overrides.insert r.key s, { r with status := s })
  | .peer, _, none => (overrides.erase r.key, { r with overridden := none })
  | .client, some s, _ => (overrides, { r with overridden := some s, status := s })
  | .client, none, some s => (overrides.insert r.key s, { r with status := s })
  | .client, none, none => (overrides, r)

/-- The record to keep of two for one instance: the stored one only if it is newer. -/
def newer (stored incoming : Instance) : Instance :=
  if incoming.dirtyAt < stored.dirtyAt then stored else incoming

def leaseFor (r : Instance) (duration : UInt64) (now upSince : Millis) : Lease Instance :=
  let l := { Lease.grant r duration now with upSince }
  if r.status = .up then l.markUp now else l

def enroll (r : Registry) (now : Millis) (origin : Origin) (incoming : Instance)
    (duration : UInt64) : Response Unit :=
  let key := incoming.key
  let held := r.held? key
  let kind : ChangeKind := if held.isSome then .modified else .added
  let chosen := match held with
    | some l => newer l.holder incoming
    | none => incoming
  let (overrides, settled) := settleOverride r.overrides origin chosen
  let registrant := { settled with lastChange := some kind, updatedAt := now }
  let upSince := (held.map (·.upSince)).getD 0
  let r := { r with overrides }
  let r := (r.store key (leaseFor registrant duration now upSince)).record kind registrant now
  let r := { r with
    registered := remember r.settings.activityCapacity r.registered ⟨now, key.1, key.2⟩ }
  { answer := ()
    registry := r
    effects :=
      .emit (.changed r.log.version kind .register key.1 key.2 (origin = .peer)) ::
        shipments origin .register registrant duration now }

def grantedDuration (asked : Option UInt64) (r : Instance) : UInt64 :=
  match asked with
  | some d => if d = 0 then r.terms.duration else d
  | none => r.terms.duration

/-- Registers an instance. A record without a time of change is changed now. -/
def register (r : Registry) (now : Millis) (origin : Origin) (incoming : Instance)
    (duration : Option UInt64) : Except Invalid (Response Unit) := do
  let incoming := { incoming with app := Text.upper incoming.app }
  incoming.check
  let granted := grantedDuration duration incoming
  checkLease incoming.id granted
  let incoming :=
    if incoming.dirtyAt = 0 then { incoming with dirtyAt := now } else incoming
  return r.enroll now origin incoming granted

/-- Renews a lease. The caller's time of change, if given, is compared with the stored one: a
newer record has to be registered, and a peer's older one is answered with ours. -/
def renew (r : Registry) (now : Millis) (origin : Origin) (app id : String)
    (dirtyAt : Option Millis) : Response RenewalAnswer :=
  let key := keyOf app id
  match r.held? key with
  | none => { answer := .notFound, registry := r }
  | some lease =>
    let lease := lease.renew now
    let r := { r.store key lease with renewals := r.renewals.increment }
    let behind := dirtyAt.any fun d => lease.holder.dirtyAt < d
    let ahead := dirtyAt.any fun d => d < lease.holder.dirtyAt
    if behind then { answer := .notFound, registry := r }
    else if ahead && origin = .peer then { answer := .conflict lease.holder, registry := r }
    else
      { answer := .renewed
        registry := r
        effects :=
          .emit (.renewed key.1 key.2 (origin = .peer)) ::
            shipments origin .heartbeat lease.holder lease.duration now }

/-- Removes a lease that satisfies a test. Peers are told of the duration the record asks for. -/
def withdraw (r : Registry) (now : Millis) (origin : Origin) (key : Key) (evicted : Bool)
    (test : Lease Instance → Bool) : Response Bool :=
  match (r.stored? key).filter test with
  | none => { answer := false, registry := r }
  | some lease =>
    let last := { lease.holder with lastChange := some .deleted, updatedAt := now }
    let r := (r.remove key).record .deleted last now
    let r := { r with
      overrides := r.overrides.erase key
      cancelled := remember r.settings.activityCapacity r.cancelled ⟨now, key.1, key.2⟩ }
    { answer := true
      registry := r
      effects :=
        (if evicted then [.emit (.evicted key.1 key.2)] else []) ++
          .emit (.changed r.log.version .deleted .cancel key.1 key.2 (origin = .peer)) ::
            shipments origin .cancel last last.terms.duration now }

def cancel (r : Registry) (now : Millis) (origin : Origin) (app id : String) : Response Bool :=
  r.withdraw now origin (keyOf app id) false fun _ => true

/-- Ends the lease of an instance if it has expired. The clock is read for the test and again for
the removal. -/
def evict (r : Registry) (seen now : Millis) (app id : String) (grace : Int) : Response Bool :=
  r.withdraw now .client (keyOf app id) true fun l => l.isExpired seen.toInt grace

/-- What an operation does to the status of a record, and to the overrides; `none` if
everything is in place already. -/
def imposeStatus (s : Status) (overrides : KeyMap Key Status) (r : Instance) :
    Option (KeyMap Key Status × Instance) :=
  if r.status = s ∧ r.overridden = some s then none
  else some (overrides.insert r.key s, { r with overridden := some s, status := s })

def releaseStatus (s : Status) (overrides : KeyMap Key Status) (r : Instance) :
    Option (KeyMap Key Status × Instance) :=
  if ¬ overrides.contains r.key ∧ r.overridden = none ∧ r.status = s then none
  else some (overrides.erase r.key, { r with overridden := none, status := s })

/-- Changes the status of a held record, unless the caller's time of change is older. -/
def changeStatus (r : Registry) (now : Millis) (origin : Origin) (operation : Operation)
    (key : Key) (dirtyAt : Option Millis)
    (change : KeyMap Key Status → Instance → Option (KeyMap Key Status × Instance)) :
    Response Verdict :=
  match r.held? key with
  | none => { answer := .notFound, registry := r }
  | some lease =>
    if dirtyAt.any (· < lease.holder.dirtyAt) then { answer := .conflict, registry := r }
    else match change r.overrides lease.holder with
      | none => { answer := .success, registry := r }
      | some (overrides, changed) =>
        let holder := { changed with
          dirtyAt := dirtyAt.getD now, lastChange := some .modified, updatedAt := now }
        let lease := { lease with holder }
        let lease := if holder.status = .up then lease.markUp now else lease
        let r := ({ r with overrides }.store key lease).record .modified holder now
        { answer := .success
          registry := r
          effects :=
            .emit (.changed r.log.version .modified operation key.1 key.2 (origin = .peer)) ::
              shipments origin operation holder lease.duration now }

def updateStatus (r : Registry) (now : Millis) (origin : Origin) (app id : String) (s : Status)
    (dirtyAt : Option Millis) : Response Verdict :=
  r.changeStatus now origin .statusUpdate (keyOf app id) dirtyAt (imposeStatus s)

def deleteOverride (r : Registry) (now : Millis) (origin : Origin) (app id : String) (s : Status)
    (dirtyAt : Option Millis) : Response Verdict :=
  r.changeStatus now origin .deleteStatusOverride (keyOf app id) dirtyAt (releaseStatus s)

def takeDirty (r : Registry) : Bool × Registry := (r.dirty, { r with dirty := false })

def prune (r : Registry) : Nat × Registry :=
  let apps := r.apps.filter fun (_, leases) => !leases.isEmpty
  (r.apps.size - apps.size, { r with apps })

def purge (r : Registry) (now : Millis) : Nat × Registry :=
  let cutoff : Millis := now - r.settings.retention.toInt64 * 1000
  let (log, purged) := r.log.purge cutoff.toInt
  (purged, { r with log })

end Registry

end ServiceRegistry
