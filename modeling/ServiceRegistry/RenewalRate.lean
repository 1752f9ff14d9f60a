/-!
# Renewal rate

Renewals are counted in windows; readers see the count of the last window that was closed.
-/

namespace ServiceRegistry

set_option autoImplicit false

structure RenewalRate where
  last : Nat := 0
  current : Nat := 0
  deriving DecidableEq, Repr

namespace RenewalRate

def increment (r : RenewalRate) : RenewalRate := { r with current := r.current + 1 }

def rotate (r : RenewalRate) : RenewalRate := ⟨r.current, 0⟩

end RenewalRate

end ServiceRegistry
