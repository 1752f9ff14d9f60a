import ServiceRegistry.Node.Basic
import ServiceRegistry.Wire.Status

/-!
# The state of a node

A summary for display: self-preservation, instances, versions, peers and the latest activity.
-/

namespace ServiceRegistry

set_option autoImplicit false

namespace Replication.PeerStatus

def toJson (s : PeerStatus) : Json :=
  .obj [("peer", .str s.peer), ("healthy", .bool s.stats.healthy), ("queued", .ofNat s.queued),
    ("sent_batches", .ofNat s.stats.sentBatches), ("sent_items", .ofNat s.stats.sentItems),
    ("failed_batches", .ofNat s.stats.failedBatches),
    ("dropped_items", .ofNat s.stats.droppedItems)]

instance : ToJson PeerStatus := ⟨toJson⟩

end Replication.PeerStatus

namespace Api

def activitiesShown : Nat := 20

def latest (activities : List Activity) : List Activity := activities.reverse.take activitiesShown

/-- The instances are counted by status as readers of the cache see them. -/
def nodeReport (n : Node) : Json :=
  let counts := statusCounts n.cache.snapshot.catalog.instances
  .obj [("self_preservation", n.eviction.status.toJson),
    ("instances", .ofNat n.registry.instanceCount),
    ("instances_by_status", .obj (counts.map fun (s, k) => (s.name, .ofNat k))),
    ("registry_version", .ofNat n.registry.log.version),
    ("cache_version", .ofNat n.cache.snapshot.version),
    ("renews_last_min", .ofNat n.registry.renewals.last),
    ("started_at", .ofInt64 n.registry.startedAt),
    ("isolated", .bool n.isIsolated),
    ("peers", .ofList Replication.PeerStatus.toJson ((n.dispatcher.map (·.statuses)).getD [])),
    ("recently_registered", .ofList Activity.toJson (latest n.registry.registered)),
    ("recently_canceled", .ofList Activity.toJson (latest n.registry.cancelled))]

end Api

end ServiceRegistry
