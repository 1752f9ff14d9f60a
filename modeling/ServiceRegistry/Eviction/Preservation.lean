import ServiceRegistry.Instance

/-!
# Self-preservation

When too few renewals arrive, or no peer can be reached, the fault is more likely in the
network than in the instances. Eviction is then suspended, as it is for a while after start.
-/

namespace ServiceRegistry

set_option autoImplicit false

inductive EvictionMode where
  | warmingUp
  | normal
  | selfPreservation
  deriving DecidableEq, Repr

namespace EvictionMode

def all : List EvictionMode := [.warmingUp, .normal, .selfPreservation]

def display : EvictionMode → String
  | .warmingUp => "warming-up"
  | .normal => "normal"
  | .selfPreservation => "self-preservation"

end EvictionMode

/-- Renewals per minute expected of instances that renew in time. -/
def expectedRenewals (active renewalInterval : Nat) : Nat :=
  if renewalInterval = 0 then 0 else active * 60 / renewalInterval

def renewalThreshold (expected : Nat) (fraction : Float) : Nat :=
  (Float.ofNat expected * fraction).floor.toUInt64.toNat

structure PreservationStatus where
  mode : EvictionMode
  enabled : Bool
  isolated : Bool
  expected : Nat
  threshold : Nat
  renewals : Nat
  active : Nat
  evaluatedAt : Millis
  deriving DecidableEq, Repr

namespace PreservationStatus

def initial (enabled : Bool) : PreservationStatus :=
  { mode := .warmingUp, enabled, isolated := false, expected := 0, threshold := 0, renewals := 0
    active := 0, evaluatedAt := 0 }

def isActive (s : PreservationStatus) : Bool := s.mode == .selfPreservation

def evictionAllowed (s : PreservationStatus) : Bool := s.mode == .normal

end PreservationStatus

structure PreservationSettings where
  enabled : Bool
  fraction : Float
  renewalInterval : UInt64
  warmupUntil : Int

structure Observation where
  now : Millis
  active : Nat
  renewals : Nat
  isolated : Bool
  deriving DecidableEq, Repr

def PreservationSettings.evaluate (s : PreservationSettings) (o : Observation) :
    PreservationStatus :=
  let expected := expectedRenewals o.active s.renewalInterval.toNat
  let threshold := renewalThreshold expected s.fraction
  let mode : EvictionMode :=
    if o.now.toInt < s.warmupUntil then .warmingUp
    else if s.enabled && (o.isolated || o.renewals < threshold) then .selfPreservation
    else .normal
  { mode, enabled := s.enabled, isolated := o.isolated, expected, threshold
    renewals := o.renewals, active := o.active, evaluatedAt := o.now }

end ServiceRegistry
