/-!
# Broadcast channels

A channel keeps the newest messages for all its receivers. A receiver gets the messages sent
after it subscribed, in order; one that fell behind is told once how many it missed and goes
on with the oldest message kept.
-/

namespace ServiceRegistry

set_option autoImplicit false

def nextPowerOfTwo (n : Nat) : Nat :=
  if n ≤ 1 then 1 else 2 * nextPowerOfTwo ((n + 1) / 2)
termination_by n
decreasing_by omega

structure Broadcast (α : Type) where
  capacity : Nat
  sent : Nat := 0
  /-- The newest messages, oldest first. -/
  kept : List α := []
  deriving DecidableEq, Repr

/-- Place of the next message for a receiver, counted from the first ever sent. -/
structure Receiver where
  next : Nat
  deriving DecidableEq, Repr

inductive Delivery (α : Type) where
  | message (a : α)
  | lagged (missed : Nat)
  | empty
  deriving DecidableEq, Repr

namespace Broadcast

variable {α : Type}

/-- The room is rounded up to a power of two. -/
def ofCapacity (capacity : Nat) : Broadcast α := { capacity := nextPowerOfTwo (max capacity 1) }

def send (c : Broadcast α) (a : α) : Broadcast α :=
  let kept := c.kept ++ [a]
  { c with sent := c.sent + 1, kept := kept.drop (kept.length - c.capacity) }

def subscribe (c : Broadcast α) : Receiver := ⟨c.sent⟩

def oldest (c : Broadcast α) : Nat := c.sent - c.kept.length

def receive (c : Broadcast α) (r : Receiver) : Delivery α × Receiver :=
  if r.next < c.oldest then (.lagged (c.oldest - r.next), ⟨c.oldest⟩)
  else match c.kept[r.next - c.oldest]? with
    | some a => (.message a, ⟨r.next + 1⟩)
    | none => (.empty, r)

def hasNews (c : Broadcast α) (r : Receiver) : Bool :=
  match (c.receive r).1 with
  | .empty => false
  | _ => true

def skim (c : Broadcast α) (r : Receiver) : Receiver :=
  if r.next < c.oldest then ⟨c.oldest⟩ else ⟨c.sent⟩

def readAll (c : Broadcast α) (r : Receiver) : List (Delivery α) × Receiver :=
  let missed := c.oldest - r.next
  ((if missed = 0 then [] else [.lagged missed]) ++
    (c.kept.drop (r.next - c.oldest)).map .message, ⟨c.sent⟩)

end Broadcast

end ServiceRegistry
