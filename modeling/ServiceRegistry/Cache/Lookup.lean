import ServiceRegistry.Cache.Payload
import ServiceRegistry.Cache.Snapshot
import ServiceRegistry.Registry.Operations
import ServiceRegistry.Wire.Catalog

/-!
# The response cache

Readers are answered from the snapshot of the last rebuild. A payload is rendered when it is
first asked for and then kept until the next rebuild. Versions that the snapshot does not cover
share one payload, as do the spellings of an application's name.
-/

namespace ServiceRegistry

set_option autoImplicit false

inductive View where
  | catalog
  | application (name : String)
  | since (version : Nat)
  | startOver
  deriving DecidableEq, Repr

abbrev PayloadKey := View × Format × Encoding

structure ResponseCache where
  snapshot : Snapshot
  payloads : KeyMap PayloadKey Payload := .empty
  hits : Nat := 0
  misses : Nat := 0

namespace ResponseCache

def ofRegistry (r : Registry) (now : Millis) : ResponseCache := { snapshot := .capture r now }

def rebuild (c : ResponseCache) (r : Registry) (now : Millis) : ResponseCache × Response Nat :=
  let r := (r.purge now).2
  let snapshot := Snapshot.capture r now
  ({ c with snapshot, payloads := .empty },
   { answer := snapshot.version, registry := r,
     effects := [.emit (.cacheRebuilt snapshot.version)] })

/-- Rebuilds if the registry changed since it was last asked, if the log lost entries that the
snapshot holds, or if some have to leave it now. -/
def refresh (c : ResponseCache) (r : Registry) (now : Millis) : ResponseCache × Response Bool :=
  let (dirty, r) := r.takeDirty
  let moved := r.log.floor ≠ c.snapshot.floor
  let (purged, r') := if dirty ∨ moved then (0, r) else r.purge now
  if dirty ∨ moved ∨ purged ≠ 0 then
    let (c, s) := c.rebuild r' now
    (c, { answer := true, registry := s.registry, effects := s.effects })
  else (c, { answer := false, registry := r' })

def fetch (c : ResponseCache) (key : PayloadKey) (v : Json) : Payload × ResponseCache :=
  match c.payloads.get? key with
  | some p => (p, { c with hits := c.hits + 1 })
  | none =>
    let p := Payload.of v key.2.1 key.2.2 c.snapshot.version
    (p, { c with misses := c.misses + 1, payloads := c.payloads.insert key p })

def catalog (c : ResponseCache) (format : Format) (encoding : Encoding) :
    Payload × ResponseCache :=
  c.fetch (.catalog, format, encoding) c.snapshot.catalog.toJson

def application? (c : ResponseCache) (name : String) (format : Format) (encoding : Encoding) :
    Option Payload × ResponseCache :=
  match c.snapshot.catalog.find? name with
  | none => (none, c)
  | some a =>
    let (p, c) := c.fetch (.application a.name, format, encoding) a.toJson
    (some p, c)

def delta (c : ResponseCache) (version : Nat) (format : Format) (encoding : Encoding) :
    Payload × ResponseCache :=
  let view : View := if c.snapshot.covers version then .since version else .startOver
  c.fetch (view, format, encoding) (c.snapshot.delta version).toJson

end ResponseCache

end ServiceRegistry
