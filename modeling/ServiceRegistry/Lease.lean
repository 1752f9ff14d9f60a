import ServiceRegistry.Instance

/-!
# Leases

A lease is a claim of liveness that lapses unless it is renewed. Times are saturated to 64
bits, so a lease of enormous length does not wrap into the past.
-/

namespace ServiceRegistry

set_option autoImplicit false

namespace Millis

def least : Int := Int64.minValue.toInt

def greatest : Int := Int64.maxValue.toInt

/-- The nearest time of 64 bits. -/
def clamp (n : Int) : Int := max least (min greatest n)

end Millis

structure Lease (α : Type) where
  holder : α
  registeredAt : Millis
  /-- When the lease itself was last touched, by registration or renewal. -/
  touchedAt : Millis
  renewedAt : Millis
  evictedAt : Millis
  /-- When the holder was first seen up under this lease. -/
  upSince : Millis
  duration : UInt64
  deriving DecidableEq, Repr

namespace Lease

variable {α : Type}

def grant (holder : α) (duration : UInt64) (now : Millis) : Lease α :=
  { holder, registeredAt := now, touchedAt := now, renewedAt := now, evictedAt := 0, upSince := 0
    duration }

def renew (l : Lease α) (now : Millis) : Lease α := { l with renewedAt := now, touchedAt := now }

def isEvicted (l : Lease α) : Bool := decide (0 < l.evictedAt)

def cancel? (l : Lease α) (now : Millis) : Option (Lease α) :=
  if l.isEvicted then none else some { l with evictedAt := now }

def markUp (l : Lease α) (now : Millis) : Lease α :=
  if l.upSince = 0 then { l with upSince := now } else l

def millis (l : Lease α) : Int := Millis.clamp (Millis.clamp l.duration.toNat * 1000)

/-- Whether no renewal came for the length of the lease and `grace` more milliseconds.
A negative grace counts as none. -/
def isExpired (l : Lease α) (now grace : Int) : Bool :=
  l.isEvicted ||
    decide (Millis.clamp (l.millis + max grace 0) ≤ Millis.clamp (now - l.renewedAt.toInt))

end Lease

end ServiceRegistry
