import ServiceRegistry.Catalog
import ServiceRegistry.Wire.Instance

/-!
# Catalogs and deltas on the wire
-/

namespace ServiceRegistry

set_option autoImplicit false

namespace Application

def toJson (a : Application) : Json :=
  .obj [("name", .str a.name), ("instances", .ofList Instance.toJson a.instances)]

def decode : Json.Decoder Application :=
  Json.structureOf ["name", "instances"] fun es =>
    Application.mk
      <$> Json.field es "name" Json.string
      <*> Json.field es "instances" (Json.list Instance.decode)

end Application

namespace Catalog

def toJson (c : Catalog) : Json :=
  .obj [("version", .ofNat c.version), ("apps_hash_code", .str c.hashCode),
    ("applications", .ofList Application.toJson c.applications)]

def decode : Json.Decoder Catalog :=
  Json.structureOf ["version", "apps_hash_code", "applications"] fun es =>
    Catalog.mk
      <$> Json.field es "version" Json.count
      <*> Json.field es "apps_hash_code" Json.string
      <*> Json.field es "applications" (Json.list Application.decode)

end Catalog

namespace Change

def toJson (c : Change) : Json :=
  .obj [("version", .ofNat c.version), ("action", c.kind.toJson), ("timestamp", .ofInt64 c.time),
    ("record", c.record.toJson)]

def decode (wasRead : Bool := false) : Json.Decoder Change :=
  Json.structureOf ["version", "action", "timestamp", "record"] fun es =>
    Change.mk
      <$> Json.field es "version" Json.count
      <*> Json.field es "action" (ChangeKind.decode wasRead)
      <*> Json.field es "timestamp" Json.int64
      <*> Json.field es "record" (Instance.decode wasRead)

end Change

namespace Delta

def toJson : Delta → Json
  | .changes since upTo hashCode log =>
    .obj [("kind", .str "changes"), ("from_version", .ofNat since), ("to_version", .ofNat upTo),
      ("apps_hash_code", .str hashCode), ("changes", .ofList Change.toJson log)]
  | .startOver version =>
    .obj [("kind", .str "full_snapshot_required"), ("current_version", .ofNat version)]

def decode : Json.Decoder Delta := fun v => do
  match ← Json.tagged "kind" ["changes", "full_snapshot_required"] 126 v with
  | ("changes", rest) =>
    Json.structureOf ["from_version", "to_version", "apps_hash_code", "changes"] (fun es =>
      Delta.changes
        <$> Json.field es "from_version" Json.count
        <*> Json.field es "to_version" Json.count
        <*> Json.field es "apps_hash_code" Json.string
        <*> Json.field es "changes" (Json.list (Change.decode true))) rest
  | (_, rest) =>
    Json.structureOf ["current_version"] (fun es =>
      Delta.startOver <$> Json.field es "current_version" Json.count) rest

end Delta

instance : ToJson Application := ⟨Application.toJson⟩

instance : FromJson Application := ⟨Application.decode⟩

instance : ToJson Catalog := ⟨Catalog.toJson⟩

instance : FromJson Catalog := ⟨Catalog.decode⟩

instance : ToJson Change := ⟨Change.toJson⟩

instance : FromJson Change := ⟨Change.decode⟩

instance : ToJson Delta := ⟨Delta.toJson⟩

instance : FromJson Delta := ⟨Delta.decode⟩

end ServiceRegistry
