import ServiceRegistry.KeyMap
import ServiceRegistry.Replication.Pending

/-!
# Batching queues

Pending items by ticket. The line holds the tickets in order, the slots hold the items, and
for each instance the latest ticket is known, so that a push finds the item to merge into
without searching the line.
-/

namespace ServiceRegistry.Replication

set_option autoImplicit false

structure Queue where
  nextTicket : Nat := 0
  line : List Nat := []
  slots : KeyMap Nat Item := .empty
  latest : KeyMap (String × String) Nat := .empty
  capacity : Nat
  dropped : Nat := 0

namespace Queue

def ofCapacity (capacity : Nat) : Queue := { capacity := max capacity 1 }

def length (q : Queue) : Nat := q.slots.size

def isEmpty (q : Queue) : Bool := q.length == 0

def unlink (q : Queue) (ticket : Nat) (i : Item) : Queue :=
  if q.latest.get? i.key = some ticket then { q with latest := q.latest.erase i.key } else q

def pop (q : Queue) : Option (Item × Queue) :=
  match q.line with
  | [] => none
  | ticket :: line =>
    match q.slots.get? ticket with
    | none => none
    | some i => some (i, unlink { q with line, slots := q.slots.erase ticket } ticket i)

def append (q : Queue) (i : Item) : Queue :=
  { q with
    nextTicket := q.nextTicket + 1
    line := q.line ++ [q.nextTicket]
    slots := q.slots.insert q.nextTicket i
    latest := q.latest.insert i.key q.nextTicket }

def place (q : Queue) (incoming : Item) : Queue :=
  match q.latest.get? incoming.key with
  | none => q.append incoming
  | some ticket =>
    match (q.slots.get? ticket).bind (·.absorb incoming) with
    | some merged => { q with slots := q.slots.insert ticket merged }
    | none => q.append incoming

def take : Nat → Queue → List Item × Queue
  | 0, q => ([], q)
  | n + 1, q =>
    match q.pop with
    | none => ([], q)
    | some (i, q) => let (items, q) := take n q; (i :: items, q)

/-- Adds an item, drops the oldest beyond the capacity, and says how many these were. -/
def push (q : Queue) (incoming : Item) : Nat × Queue :=
  let q := q.place incoming
  let (gone, q) := take (q.length - q.capacity) q
  (gone.length, { q with dropped := q.dropped + gone.length })

def drain (q : Queue) (most : Nat) : List Item × Queue := take (min most q.length) q

def toList (q : Queue) : List Item := q.line.filterMap q.slots.get?

end Queue

end ServiceRegistry.Replication
