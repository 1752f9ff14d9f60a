import ServiceRegistry.Lease
import ServiceRegistry.Wire.Instance

/-!
# Leases on the wire
-/

namespace ServiceRegistry.Lease

set_option autoImplicit false

variable {α : Type}

def fieldNames : List String :=
  ["holder", "registration_timestamp", "last_update_timestamp", "last_renewal_timestamp",
   "eviction_timestamp", "service_up_timestamp", "duration_secs"]

def toJson (holder : α → Json) (l : Lease α) : Json :=
  .obj [("holder", holder l.holder),
    ("registration_timestamp", .ofInt64 l.registeredAt),
    ("last_update_timestamp", .ofInt64 l.touchedAt),
    ("last_renewal_timestamp", .ofInt64 l.renewedAt),
    ("eviction_timestamp", .ofInt64 l.evictedAt),
    ("service_up_timestamp", .ofInt64 l.upSince),
    ("duration_secs", .ofUInt64 l.duration)]

def decode (holder : Json.Decoder α) : Json.Decoder (Lease α) :=
  Json.structureOf fieldNames fun es =>
    Lease.mk
      <$> Json.field es "holder" holder
      <*> Json.field es "registration_timestamp" Json.int64
      <*> Json.field es "last_update_timestamp" Json.int64
      <*> Json.field es "last_renewal_timestamp" Json.int64
      <*> Json.field es "eviction_timestamp" Json.int64
      <*> Json.field es "service_up_timestamp" Json.int64
      <*> Json.field es "duration_secs" Json.uint64

instance [ToJson α] : ToJson (Lease α) := ⟨toJson ToJson.toJson⟩

instance [FromJson α] : FromJson (Lease α) := ⟨decode FromJson.fromJson⟩

end ServiceRegistry.Lease
