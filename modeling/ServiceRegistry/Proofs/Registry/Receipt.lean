import ServiceRegistry.Proofs.Registry.Reachable

/-! # Receiving items

To receive an item of a peer is to perform the command that the item carries, as a peer's. An
item that lacks what its operation needs carries none.
-/

namespace ServiceRegistry

set_option autoImplicit false

open Replication

def Replication.Item.command? (i : Item) : Option Command :=
  match i.operation with
  | .register => i.record.map fun record => .register .peer record i.lease
  | .heartbeat => some (.renew .peer i.app i.id (Registry.positive i.dirtyAt))
  | .cancel => some (.cancel .peer i.app i.id)
  | .statusUpdate =>
    i.status.map fun s => .updateStatus .peer i.app i.id s (Registry.positive i.dirtyAt)
  | .deleteStatusOverride =>
    some (.deleteOverride .peer i.app i.id (i.status.getD .unknown) (Registry.positive i.dirtyAt))

def Command.told (record : Instance) (lease : Option UInt64) : Operation → Command
  | .register => .register .peer record lease
  | .heartbeat => .renew .peer record.app record.id (Registry.positive record.dirtyAt)
  | .cancel => .cancel .peer record.app record.id
  | .statusUpdate =>
    .updateStatus .peer record.app record.id record.status (Registry.positive record.dirtyAt)
  | .deleteStatusOverride =>
    .deleteOverride .peer record.app record.id record.status (Registry.positive record.dirtyAt)

theorem Command.key_told (record : Instance) (lease : Option UInt64) (operation : Operation) :
    (Command.told record lease operation).key = Registry.keyOf record.app record.id := by
  cases operation <;> rfl

theorem Replication.Item.command?_of (operation : Operation) (record : Instance) (time : Millis)
    (lease : Option UInt64) :
    ({ Item.of operation record time with lease } : Item).command? =
      some (Command.told record lease operation) := by
  cases operation <;> rfl

namespace Slot

def receive (s : Slot) (now : Millis) (i : Item) : Slot :=
  match i.command? with
  | some c => (s.move now c).slot
  | none => s

def receiveEach (s : Slot) (deliveries : List (Millis × Item)) : Slot :=
  deliveries.foldl (fun s d => s.receive d.1 d.2) s

end Slot

namespace Registry

def receiveEach (r : Registry) (deliveries : List (Millis × Item)) : Registry :=
  deliveries.foldl (fun r d => (r.receive d.1 d.2).registry) r

theorem positive_of_pos {t : Millis} (h : 0 < t) : positive t = some t := if_pos h

theorem receive_registry (r : Registry) (now : Millis) (i : Item) :
    (r.receive now i).registry =
      match i.command? with
      | some c => (r.perform now c).registry
      | none => r := by
  unfold receive Item.command?
  cases i.operation with
  | register =>
    cases i.record with
    | none => rfl
    | some record =>
      simp only [Option.map_some, perform]
      cases r.register now .peer record i.lease <;> rfl
  | heartbeat => rfl
  | cancel => rfl
  | statusUpdate => cases i.status <;> rfl
  | deleteStatusOverride => rfl

theorem receiveAll_induction {P : Registry → Prop} {now : Millis}
    (hperform : ∀ {r : Registry} (c : Command), P r → P (r.perform now c).registry)
    (items : List Item) {r : Registry} (h : P r) : P (r.receiveAll now items).registry := by
  induction items generalizing r with
  | nil => exact h
  | cons i rest ih =>
    refine ih ?_
    rw [receive_registry]
    split
    · exact hperform _ h
    · exact h

variable {r : Registry}

theorem Reachable.receive (h : r.Reachable) (now : Millis) (i : Item) :
    (r.receive now i).registry.Reachable := by
  rw [receive_registry]
  split
  · exact .perform now _ h
  · exact h

theorem Sound.receive (hr : r.Sound) (now : Millis) (i : Item) :
    (r.receive now i).registry.Sound := by
  rw [receive_registry]
  split
  · exact hr.perform now _
  · exact hr

theorem Sound.slot_receive (hr : r.Sound) (now : Millis) {i : Item} {c : Command}
    (hc : i.command? = some c) (k : Key) :
    (r.receive now i).registry.slot k =
      if c.key = k then ((r.slot k).move now c).slot else r.slot k := by
  rw [receive_registry, hc]
  exact hr.slot_perform now c k

/-- Items about one instance do to its slot what they do one after another. -/
theorem Sound.slot_receiveEach (hr : r.Sound) {k : Key} {deliveries : List (Millis × Item)}
    (hkey : ∀ d ∈ deliveries, ∀ c, d.2.command? = some c → c.key = k) :
    (r.receiveEach deliveries).Sound ∧
      (r.receiveEach deliveries).slot k = (r.slot k).receiveEach deliveries := by
  induction deliveries generalizing r with
  | nil => exact ⟨hr, rfl⟩
  | cons d rest ih =>
    obtain ⟨hd, hrest⟩ := List.forall_mem_cons.mp hkey
    have hslot : (r.receive d.1 d.2).registry.slot k = (r.slot k).receive d.1 d.2 := by
      unfold Slot.receive
      cases hc : d.2.command? with
      | none => rw [receive_registry, hc]
      | some c => rw [hr.slot_receive d.1 hc, if_pos (hd c hc)]
    obtain ⟨hsound, hafter⟩ := ih (hr.receive d.1 d.2) hrest
    refine ⟨hsound, hafter.trans ?_⟩
    rw [hslot]
    rfl

end Registry

end ServiceRegistry
