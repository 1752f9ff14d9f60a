import ServiceRegistry.Instance
import ServiceRegistry.Json.Typed

/-!
# Instances on the wire

A record is always written with all its fields; when it is read, the fields with a default
may be missing.
-/

namespace ServiceRegistry

set_option autoImplicit false

def Status.words : List (String × Status) := Status.all.map fun s => (s.name, s)

def Status.toJson (s : Status) : Json := .str s.name

def Status.decode (wasRead : Bool := false) : Json.Decoder Status :=
  Json.oneOf Status.words wasRead

def ChangeKind.toJson (k : ChangeKind) : Json := .str k.name

def ChangeKind.decode (wasRead : Bool := false) : Json.Decoder ChangeKind :=
  Json.oneOf (ChangeKind.all.map fun k => (k.name, k)) wasRead

namespace LeaseTerms

def fieldNames : List String := ["duration_secs", "renewal_interval_secs"]

def toJson (t : LeaseTerms) : Json :=
  .obj [("duration_secs", .ofUInt64 t.duration),
    ("renewal_interval_secs", .ofUInt64 t.renewalInterval)]

def decode : Json.Decoder LeaseTerms :=
  Json.structureOf fieldNames fun es =>
    LeaseTerms.mk
      <$> Json.field es "duration_secs" Json.uint64 (some 90)
      <*> Json.field es "renewal_interval_secs" Json.uint64 (some 30)

end LeaseTerms

namespace Metadata

def toJson (m : Metadata) : Json := .obj (m.pairs.map fun (k, v) => (k, .str v))

def decode : Json.Decoder Metadata
  | .obj entries =>
    (entries.mapM fun entry => (Json.string entry.2).map (entry.1, ·)).map Metadata.ofList
  | v => Json.refuse v

end Metadata

namespace Instance

def fieldNames : List String :=
  ["app_name", "instance_id", "host_name", "ip_addr", "port", "secure_port", "vip_address",
   "status", "overridden_status", "metadata", "lease_info", "last_dirty_timestamp",
   "last_updated_timestamp", "action_type"]

def entries (r : Instance) : List (String × Json) :=
  [("app_name", .str r.app),
   ("instance_id", .str r.id),
   ("host_name", .str r.host),
   ("ip_addr", .str r.ip),
   ("port", .ofUInt16 r.port),
   ("secure_port", .ofOption .ofUInt16 r.securePort),
   ("vip_address", .ofOption .str r.vip),
   ("status", r.status.toJson),
   ("overridden_status", .ofOption Status.toJson r.overridden),
   ("metadata", r.metadata.toJson),
   ("lease_info", r.terms.toJson),
   ("last_dirty_timestamp", .ofInt64 r.dirtyAt),
   ("last_updated_timestamp", .ofInt64 r.updatedAt),
   ("action_type", .ofOption ChangeKind.toJson r.lastChange)]

def toJson (r : Instance) : Json := .obj r.entries

/-- With `wasRead`, the record is part of a value that was read whole to find its tag. -/
def decode (wasRead : Bool := false) : Json.Decoder Instance :=
  Json.structureOf fieldNames fun es =>
    Instance.mk
      <$> Json.field es "app_name" Json.string
      <*> Json.field es "instance_id" Json.string
      <*> Json.field es "host_name" Json.string
      <*> Json.field es "ip_addr" Json.string
      <*> Json.field es "port" Json.uint16
      <*> Json.field es "secure_port" (Json.optional Json.uint16) (some none)
      <*> Json.field es "vip_address" (Json.optional Json.string) (some none)
      <*> Json.field es "status" (Status.decode wasRead) (some .up)
      <*> Json.field es "overridden_status" (Json.optional (Status.decode wasRead)) (some none)
      <*> Json.field es "metadata" Metadata.decode (some .empty)
      <*> Json.field es "lease_info" LeaseTerms.decode (some {})
      <*> Json.field es "last_dirty_timestamp" Json.int64 (some 0)
      <*> Json.field es "last_updated_timestamp" Json.int64 (some 0)
      <*> Json.field es "action_type" (Json.optional (ChangeKind.decode wasRead)) (some none)

end Instance

instance : ToJson Status := ⟨Status.toJson⟩

instance : FromJson Status := ⟨Status.decode⟩

instance : ToJson ChangeKind := ⟨ChangeKind.toJson⟩

instance : FromJson ChangeKind := ⟨ChangeKind.decode⟩

instance : ToJson LeaseTerms := ⟨LeaseTerms.toJson⟩

instance : FromJson LeaseTerms := ⟨LeaseTerms.decode⟩

instance : ToJson Metadata := ⟨Metadata.toJson⟩

instance : FromJson Metadata := ⟨Metadata.decode⟩

instance : ToJson Instance := ⟨Instance.toJson⟩

instance : FromJson Instance := ⟨Instance.decode⟩

end ServiceRegistry
