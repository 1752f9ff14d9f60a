import ServiceRegistry.Replication.Item

/-!
# Pending items

Items that wait for a peer, oldest first. A newer item for an instance takes the place of the
one that waits for it. A pending registration is not displaced by a heartbeat or a change of
status but takes their content over, and the removal of an override waits behind it.
-/

namespace ServiceRegistry.Replication

set_option autoImplicit false

/-- The pending item after taking in an incoming one for the same instance; `none` if the
incoming one has to wait on its own. -/
def Item.absorb (pending incoming : Item) : Option Item :=
  match pending.operation, incoming.operation with
  | .register, .deleteStatusOverride => none
  | .register, .heartbeat | .register, .statusUpdate =>
    some { pending with
      record := incoming.record.or pending.record
      status := incoming.status.or pending.status
      dirtyAt := if pending.dirtyAt < incoming.dirtyAt then incoming.dirtyAt else pending.dirtyAt
      time := incoming.time }
  | .statusUpdate, .heartbeat | .deleteStatusOverride, .heartbeat =>
    some { pending with time := incoming.time }
  | _, _ => some incoming

/-- A plain list of pending items with room for some of them. -/
structure Pending where
  items : List Item := []
  capacity : Nat
  dropped : Nat := 0
  deriving DecidableEq, Repr

namespace Pending

def ofCapacity (capacity : Nat) : Pending := { capacity := max capacity 1 }

/-- Absorbs an item into the last one with its key, or appends it. -/
def place (incoming : Item) : List Item → List Item
  | [] => [incoming]
  | i :: rest =>
    if i.key = incoming.key ∧ ¬ rest.any (·.key = incoming.key) then
      match i.absorb incoming with
      | some merged => merged :: rest
      | none => i :: rest ++ [incoming]
    else i :: place incoming rest

/-- Adds an item, drops the oldest beyond the capacity, and says how many these were. -/
def push (p : Pending) (incoming : Item) : Nat × Pending :=
  let items := place incoming p.items
  let excess := items.length - p.capacity
  (excess, { p with items := items.drop excess, dropped := p.dropped + excess })

def drain (p : Pending) (most : Nat) : List Item × Pending :=
  (p.items.take most, { p with items := p.items.drop most })

end Pending

end ServiceRegistry.Replication
