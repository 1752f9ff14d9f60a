import ServiceRegistry.Eviction.Controller
import ServiceRegistry.Wire.Instance

/-!
# States and answers on the wire
-/

namespace ServiceRegistry

set_option autoImplicit false

namespace EvictionMode

def wireName : EvictionMode → String
  | .warmingUp => "warming_up"
  | .normal => "normal"
  | .selfPreservation => "self_preservation"

def toJson (m : EvictionMode) : Json := .str m.wireName

def decode : Json.Decoder EvictionMode := Json.oneOf (all.map fun m => (m.wireName, m))

end EvictionMode

namespace PreservationStatus

def fieldNames : List String :=
  ["mode", "enabled", "isolated", "expected_renews_per_min", "renews_threshold",
   "renews_last_min", "active_leases", "evaluated_at"]

def toJson (s : PreservationStatus) : Json :=
  .obj [("mode", s.mode.toJson), ("enabled", .bool s.enabled), ("isolated", .bool s.isolated),
    ("expected_renews_per_min", .ofNat s.expected), ("renews_threshold", .ofNat s.threshold),
    ("renews_last_min", .ofNat s.renewals), ("active_leases", .ofNat s.active),
    ("evaluated_at", .ofInt64 s.evaluatedAt)]

def decode : Json.Decoder PreservationStatus :=
  Json.structureOf fieldNames fun es =>
    PreservationStatus.mk
      <$> Json.field es "mode" EvictionMode.decode
      <*> Json.field es "enabled" Json.boolean
      <*> Json.field es "isolated" Json.boolean
      <*> Json.field es "expected_renews_per_min" Json.count
      <*> Json.field es "renews_threshold" Json.count
      <*> Json.field es "renews_last_min" Json.count
      <*> Json.field es "active_leases" Json.count
      <*> Json.field es "evaluated_at" Json.int64

end PreservationStatus

def EvictionReport.toJson (r : EvictionReport) : Json :=
  .obj [("mode", r.mode.toJson), ("expired", .ofNat r.expired), ("cap", .ofNat r.cap),
    ("evicted", .ofNat r.evicted), ("compensation_ms", .int r.compensation)]

namespace Verdict

def all : List Verdict := [.success, .notFound, .conflict]

def name : Verdict → String
  | .success => "SUCCESS"
  | .notFound => "NOT_FOUND"
  | .conflict => "CONFLICT"

def toJson (v : Verdict) : Json := .str v.name

def decode : Json.Decoder Verdict := Json.oneOf (all.map fun v => (v.name, v))

end Verdict

namespace Activity

def toJson (a : Activity) : Json :=
  .obj [("timestamp", .ofInt64 a.time), ("app_name", .str a.app), ("instance_id", .str a.id)]

def decode : Json.Decoder Activity :=
  Json.structureOf ["timestamp", "app_name", "instance_id"] fun es =>
    Activity.mk
      <$> Json.field es "timestamp" Json.int64
      <*> Json.field es "app_name" Json.string
      <*> Json.field es "instance_id" Json.string

end Activity

instance : ToJson EvictionMode := ⟨EvictionMode.toJson⟩

instance : FromJson EvictionMode := ⟨EvictionMode.decode⟩

instance : ToJson PreservationStatus := ⟨PreservationStatus.toJson⟩

instance : FromJson PreservationStatus := ⟨PreservationStatus.decode⟩

instance : ToJson Verdict := ⟨Verdict.toJson⟩

instance : FromJson Verdict := ⟨Verdict.decode⟩

instance : ToJson Activity := ⟨Activity.toJson⟩

instance : FromJson Activity := ⟨Activity.decode⟩

instance : ToJson EvictionReport := ⟨EvictionReport.toJson⟩

end ServiceRegistry
