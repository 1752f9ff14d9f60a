import ServiceRegistry.Event
import ServiceRegistry.Wire.Replication

/-!
# Events on the wire
-/

namespace ServiceRegistry.Event

set_option autoImplicit false

def variants : List String :=
  ["changed", "renewed", "evicted", "eviction_cycle", "self_preservation_changed",
   "replication_sent", "replication_failed", "replication_dropped", "cache_rebuilt"]

def toJson : Event → Json
  | changed version kind operation app id replicated =>
    .obj [("event", .str "changed"), ("version", .ofNat version), ("action", kind.toJson),
      ("operation", operation.toJson), ("app_name", .str app), ("instance_id", .str id),
      ("replicated", .bool replicated)]
  | renewed app id replicated =>
    .obj [("event", .str "renewed"), ("app_name", .str app), ("instance_id", .str id),
      ("replicated", .bool replicated)]
  | evicted app id =>
    .obj [("event", .str "evicted"), ("app_name", .str app), ("instance_id", .str id)]
  | evictionCycle expired removed suspended =>
    .obj [("event", .str "eviction_cycle"), ("expired", .ofNat expired),
      ("evicted", .ofNat removed), ("suspended", .bool suspended)]
  | selfPreservationChanged active =>
    .obj [("event", .str "self_preservation_changed"), ("active", .bool active)]
  | replicationSent peer items =>
    .obj [("event", .str "replication_sent"), ("peer", .str peer), ("items", .ofNat items)]
  | replicationFailed peer operation reason =>
    .obj [("event", .str "replication_failed"), ("peer", .str peer),
      ("action", operation.toJson), ("reason", .str reason)]
  | replicationDropped peer items =>
    .obj [("event", .str "replication_dropped"), ("peer", .str peer), ("items", .ofNat items)]
  | cacheRebuilt version =>
    .obj [("event", .str "cache_rebuilt"), ("version", .ofNat version)]

def decode : Json.Decoder Event := fun v => do
  match ← Json.tagged "event" variants 126 v with
  | ("changed", rest) =>
    Json.structureOf ["version", "action", "operation", "app_name", "instance_id", "replicated"]
      (fun es =>
        Event.changed
          <$> Json.field es "version" Json.count
          <*> Json.field es "action" (ChangeKind.decode true)
          <*> Json.field es "operation" (Operation.decode true)
          <*> Json.field es "app_name" Json.string
          <*> Json.field es "instance_id" Json.string
          <*> Json.field es "replicated" Json.boolean) rest
  | ("renewed", rest) =>
    Json.structureOf ["app_name", "instance_id", "replicated"] (fun es =>
      Event.renewed
        <$> Json.field es "app_name" Json.string
        <*> Json.field es "instance_id" Json.string
        <*> Json.field es "replicated" Json.boolean) rest
  | ("evicted", rest) =>
    Json.structureOf ["app_name", "instance_id"] (fun es =>
      Event.evicted
        <$> Json.field es "app_name" Json.string
        <*> Json.field es "instance_id" Json.string) rest
  | ("eviction_cycle", rest) =>
    Json.structureOf ["expired", "evicted", "suspended"] (fun es =>
      Event.evictionCycle
        <$> Json.field es "expired" Json.count
        <*> Json.field es "evicted" Json.count
        <*> Json.field es "suspended" Json.boolean) rest
  | ("self_preservation_changed", rest) =>
    Json.structureOf ["active"] (fun es =>
      Event.selfPreservationChanged <$> Json.field es "active" Json.boolean) rest
  | ("replication_sent", rest) =>
    Json.structureOf ["peer", "items"] (fun es =>
      Event.replicationSent
        <$> Json.field es "peer" Json.string
        <*> Json.field es "items" Json.count) rest
  | ("replication_failed", rest) =>
    Json.structureOf ["peer", "action", "reason"] (fun es =>
      Event.replicationFailed
        <$> Json.field es "peer" Json.string
        <*> Json.field es "action" (Operation.decode true)
        <*> Json.field es "reason" Json.string) rest
  | ("replication_dropped", rest) =>
    Json.structureOf ["peer", "items"] (fun es =>
      Event.replicationDropped
        <$> Json.field es "peer" Json.string
        <*> Json.field es "items" Json.count) rest
  | (_, rest) =>
    Json.structureOf ["version"] (fun es =>
      Event.cacheRebuilt <$> Json.field es "version" Json.count) rest

instance : ToJson Event := ⟨toJson⟩

instance : FromJson Event := ⟨decode⟩

end ServiceRegistry.Event
