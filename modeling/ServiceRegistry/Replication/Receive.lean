import ServiceRegistry.Registry.Operations
import ServiceRegistry.Registry.Views

/-!
# Receiving from peers

Every item of a peer is applied as a peer's operation, so nothing is passed on. A time of
change counts only if it is positive.
-/

namespace ServiceRegistry.Registry

set_option autoImplicit false

open Replication

def Response.map {α β : Type} (f : α → β) (s : Response α) : Response β :=
  { answer := f s.answer, registry := s.registry, effects := s.effects }

def positive (t : Millis) : Option Millis := if 0 < t then some t else none

def statusOutcome (item : Item) (s : Response Verdict) : Response Outcome :=
  Response.map (fun
    | .success => .success
    | .notFound => .notFound
    | .conflict => .conflict (s.registry.instance? item.app item.id)) s

def receive (r : Registry) (now : Millis) (item : Item) : Response Outcome :=
  match item.operation with
  | .register =>
    match item.record with
    | none => { answer := .rejected "register without a record", registry := r }
    | some record =>
      match r.register now .peer record item.lease with
      | .ok s => Response.map (fun _ => .success) s
      | .error e => { answer := .rejected e.requestMessage, registry := r }
  | .heartbeat =>
    Response.map (fun
      | .renewed => .success
      | .notFound => .notFound
      | .conflict record => .conflict (some record))
      (r.renew now .peer item.app item.id (positive item.dirtyAt))
  | .cancel =>
    Response.map (fun found => if found then .success else .notFound)
      (r.cancel now .peer item.app item.id)
  | .statusUpdate =>
    match item.status with
    | none => { answer := .rejected "status update without a status", registry := r }
    | some s =>
      statusOutcome item (r.updateStatus now .peer item.app item.id s (positive item.dirtyAt))
  | .deleteStatusOverride =>
    statusOutcome item
      (r.deleteOverride now .peer item.app item.id (item.status.getD .unknown)
        (positive item.dirtyAt))

def receiveAll (r : Registry) (now : Millis) : List Item → Response (List Outcome)
  | [] => { answer := [], registry := r }
  | item :: rest =>
    let s := r.receive now item
    let t := s.registry.receiveAll now rest
    { answer := s.answer :: t.answer, registry := t.registry, effects := s.effects ++ t.effects }

/-- Takes over the newer record of a peer. A lease that is held for it keeps its length. -/
def adopt (r : Registry) (now : Millis) (record : Instance) (lease : Option UInt64) :
    Except Invalid (Response Unit) :=
  r.register now .peer record (((r.lease? record.app record.id).map (·.duration)).or lease)

end ServiceRegistry.Registry
