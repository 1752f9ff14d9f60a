import ServiceRegistry.Eviction.Preservation
import ServiceRegistry.Registry.Operations
import ServiceRegistry.Registry.Views

/-!
# Eviction

A cycle evaluates self-preservation and then removes expired leases, at most a fraction of all
leases. Time by which the cycle itself is late is granted to every lease. Which of too many
expired leases are removed is a choice from outside.
-/

namespace ServiceRegistry

set_option autoImplicit false

structure EvictionSettings where
  /-- Time between cycles, in milliseconds. -/
  interval : Nat := 60000
  fraction : Float := 0.85
  capFraction : Float := 0.15
  selfPreservation : Bool := true
  /-- Time after start without eviction, in milliseconds. -/
  warmup : Nat := 90000
  /-- Time between renewals that instances are expected to keep, in seconds. -/
  renewalInterval : UInt64 := 30

def evictionCap (leases : Nat) (fraction : Float) : Nat :=
  max 1 (Float.ofNat leases * fraction).round.toUInt64.toNat

structure EvictionReport where
  mode : EvictionMode
  expired : Nat
  cap : Nat
  evicted : Nat
  /-- Time granted to the leases because the cycle was late, in milliseconds. -/
  compensation : Int
  deriving DecidableEq, Repr

/-- Picks the keys to remove from the expired ones, given how many these may be. -/
abbrev Choice := Nat → List Key → List Key

def Choice.first : Choice := fun n keys => keys.take n

structure EvictionController where
  settings : EvictionSettings
  preservation : PreservationSettings
  status : PreservationStatus
  lastCycle : Option Millis := none

namespace EvictionController

def ofSettings (s : EvictionSettings) (startedAt : Millis) : EvictionController :=
  { settings := s
    preservation :=
      { enabled := s.selfPreservation, fraction := s.fraction
        renewalInterval := s.renewalInterval
        warmupUntil := (startedAt + Int64.ofNat s.warmup).toInt }
    status := .initial s.selfPreservation }

def compensation (c : EvictionController) (now : Millis) : Int :=
  match c.lastCycle with
  | some last => max (now - last - Int64.ofNat c.settings.interval).toInt 0
  | none => 0

def evictAll (r : Registry) (now : Millis) (grace : Int) : List Key → Response Nat
  | [] => { answer := 0, registry := r }
  | (app, id) :: rest =>
    let s := r.evict now now app id grace
    let t := evictAll s.registry now grace rest
    { answer := t.answer + s.answer.toNat, registry := t.registry
      effects := s.effects ++ t.effects }

def modeEffects (before after : PreservationStatus) : List Effect :=
  if before.mode ≠ after.mode ∧ before.isActive ≠ after.isActive then
    [.emit (.selfPreservationChanged after.isActive)]
  else []

def run (c : EvictionController) (r : Registry) (now : Millis) (isolated : Bool)
    (choose : Choice) : EvictionController × Response EvictionReport :=
  let grace := c.compensation now
  let active := r.instanceCount
  let status := c.preservation.evaluate ⟨now, active, r.renewals.last, isolated⟩
  let expired := r.expired now.toInt grace
  let cap := evictionCap active c.settings.capFraction
  let chosen :=
    if ¬ status.evictionAllowed then []
    else if cap < expired.length then choose cap expired
    else expired
  let s := evictAll r now grace chosen
  let report : EvictionReport :=
    { mode := status.mode, expired := expired.length, cap, evicted := s.answer
      compensation := grace }
  ({ c with status, lastCycle := some now },
   { answer := report
     registry := s.registry.prune.2
     effects := modeEffects c.status status ++ s.effects ++
       [.emit (.evictionCycle expired.length s.answer (status.mode ≠ .normal))] })

end EvictionController

end ServiceRegistry
