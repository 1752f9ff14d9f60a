import ServiceRegistry.Peer
import ServiceRegistry.Replication.Item
import ServiceRegistry.Wire.Catalog

/-!
# Batches and their answers on the wire
-/

namespace ServiceRegistry

set_option autoImplicit false

namespace Peer

def toJson (p : Peer) : Json := .obj [("host", .str p.host), ("port", .ofUInt16 p.port)]

def decode : Json.Decoder Peer :=
  Json.structureOf ["host", "port"] fun es =>
    Peer.mk <$> Json.field es "host" Json.string <*> Json.field es "port" Json.uint16

end Peer

def Operation.toJson (o : Operation) : Json := .str o.name

def Operation.decode (wasRead : Bool := false) : Json.Decoder Operation :=
  Json.oneOf (Operation.all.map fun o => (o.name, o)) wasRead

namespace Replication

namespace Item

def fieldNames : List String :=
  ["action", "app_name", "instance_id", "record", "status", "lease_duration_secs",
   "last_dirty_timestamp", "timestamp"]

def entries (i : Item) : List (String × Json) :=
  [("action", i.operation.toJson),
   ("app_name", .str i.app),
   ("instance_id", .str i.id),
   ("record", .ofOption Instance.toJson i.record),
   ("status", .ofOption Status.toJson i.status),
   ("lease_duration_secs", .ofOption .ofUInt64 i.lease),
   ("last_dirty_timestamp", .ofInt64 i.dirtyAt),
   ("timestamp", .ofInt64 i.time)]

def toJson (i : Item) : Json := .obj i.entries

def decode : Json.Decoder Item :=
  Json.structureOf fieldNames fun es =>
    Item.mk
      <$> Json.field es "action" Operation.decode
      <*> Json.field es "app_name" Json.string
      <*> Json.field es "instance_id" Json.string
      <*> Json.field es "record" (Json.optional Instance.decode) (some none)
      <*> Json.field es "status" (Json.optional Status.decode) (some none)
      <*> Json.field es "lease_duration_secs" (Json.optional Json.uint64) (some none)
      <*> Json.field es "last_dirty_timestamp" Json.int64 (some 0)
      <*> Json.field es "timestamp" Json.int64

end Item

namespace Batch

def toJson (items : List Item) : Json := .obj [("items", .ofList Item.toJson items)]

def decode : Json.Decoder (List Item) :=
  Json.structureOf ["items"] fun es => Json.field es "items" (Json.list Item.decode)

end Batch

namespace Outcome

def toJson : Outcome → Json
  | .success => .obj [("outcome", .str "success")]
  | .notFound => .obj [("outcome", .str "not_found")]
  | .conflict record =>
    .obj [("outcome", .str "conflict"), ("record", .ofOption Instance.toJson record)]
  | .rejected reason => .obj [("outcome", .str "rejected"), ("reason", .str reason)]

def decodeWithin (levels : Nat) : Json.Decoder Outcome := fun v => do
  match ← Json.tagged "outcome" ["success", "not_found", "conflict", "rejected"] levels v with
  | ("success", rest) => (Json.nothing rest).map fun _ => .success
  | ("not_found", rest) => (Json.nothing rest).map fun _ => .notFound
  | ("conflict", rest) =>
    Json.structureOf ["record"] (fun es =>
      Outcome.conflict
        <$> Json.field es "record" (Json.optional (Instance.decode true)) (some none)) rest
  | (_, rest) =>
    Json.structureOf ["reason"] (fun es =>
      Outcome.rejected <$> Json.field es "reason" Json.string) rest

def decode : Json.Decoder Outcome := decodeWithin 126

end Outcome

namespace Reply

def toJson (results : List Outcome) : Json := .obj [("results", .ofList Outcome.toJson results)]

def decode : Json.Decoder (List Outcome) :=
  Json.structureOf ["results"] fun es =>
    Json.field es "results" (Json.list (Outcome.decodeWithin 124))

end Reply

end Replication

instance : ToJson Peer := ⟨Peer.toJson⟩

instance : FromJson Peer := ⟨Peer.decode⟩

instance : ToJson Operation := ⟨Operation.toJson⟩

instance : FromJson Operation := ⟨Operation.decode⟩

instance : ToJson Replication.Item := ⟨Replication.Item.toJson⟩

instance : FromJson Replication.Item := ⟨Replication.Item.decode⟩

instance : ToJson Replication.Outcome := ⟨Replication.Outcome.toJson⟩

instance : FromJson Replication.Outcome := ⟨Replication.Outcome.decode⟩

end ServiceRegistry
