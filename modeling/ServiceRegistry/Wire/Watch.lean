import ServiceRegistry.Watch
import ServiceRegistry.Wire.Instance

/-!
# Watched changes on the wire
-/

namespace ServiceRegistry.WatchEvent

set_option autoImplicit false

def toJson (e : WatchEvent) : Json :=
  .obj [("version", .ofNat e.version), ("action", e.kind.toJson), ("app_name", .str e.app),
    ("instance_id", .str e.id)]

def decode : Json.Decoder WatchEvent :=
  Json.structureOf ["version", "action", "app_name", "instance_id"] fun es =>
    WatchEvent.mk
      <$> Json.field es "version" Json.count
      <*> Json.field es "action" ChangeKind.decode
      <*> Json.field es "app_name" Json.string
      <*> Json.field es "instance_id" Json.string

instance : ToJson WatchEvent := ⟨toJson⟩

instance : FromJson WatchEvent := ⟨decode⟩

end ServiceRegistry.WatchEvent
