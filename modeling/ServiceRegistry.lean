import ServiceRegistry.Api.Handlers
import ServiceRegistry.Api.NodeReport
import ServiceRegistry.Api.Route
import ServiceRegistry.Broadcast
import ServiceRegistry.Cache.Lookup
import ServiceRegistry.Cache.Payload
import ServiceRegistry.Cache.Settings
import ServiceRegistry.Cache.Snapshot
import ServiceRegistry.Catalog
import ServiceRegistry.ChangeLog
import ServiceRegistry.Cluster
import ServiceRegistry.Decimal.Literal
import ServiceRegistry.Decimal.Shortest
import ServiceRegistry.Event
import ServiceRegistry.Eviction.Controller
import ServiceRegistry.Eviction.Preservation
import ServiceRegistry.Http.Body
import ServiceRegistry.Http.Message
import ServiceRegistry.Http.Reason
import ServiceRegistry.Http.Target
import ServiceRegistry.Instance
import ServiceRegistry.Json.Basic
import ServiceRegistry.Json.Decode
import ServiceRegistry.Json.Printer
import ServiceRegistry.Json.Reader
import ServiceRegistry.Json.Typed
import ServiceRegistry.KeyMap
import ServiceRegistry.Lease
import ServiceRegistry.Main
import ServiceRegistry.Metadata
import ServiceRegistry.Metrics
import ServiceRegistry.Node.Basic
import ServiceRegistry.Node.Chores
import ServiceRegistry.Peer
import ServiceRegistry.Proofs.Cache.Reader
import ServiceRegistry.Proofs.Registry.Rewind
import ServiceRegistry.Proofs.Registry.Stale
import ServiceRegistry.Proofs.Replication.Convergence
import ServiceRegistry.Registry.Basic
import ServiceRegistry.Registry.Operations
import ServiceRegistry.Registry.Views
import ServiceRegistry.RenewalRate
import ServiceRegistry.Replication.Discovery
import ServiceRegistry.Replication.Dispatcher
import ServiceRegistry.Replication.Failure
import ServiceRegistry.Replication.Item
import ServiceRegistry.Replication.Pending
import ServiceRegistry.Replication.Queue
import ServiceRegistry.Replication.Receive
import ServiceRegistry.Replication.Transport
import ServiceRegistry.Replication.Worker
import ServiceRegistry.Server.CommandLine
import ServiceRegistry.Server.File
import ServiceRegistry.Server.Launch
import ServiceRegistry.Server.Settings
import ServiceRegistry.Text.Blank
import ServiceRegistry.Text.Percent
import ServiceRegistry.Text.Pieces
import ServiceRegistry.Text.Units
import ServiceRegistry.Text.Uppercase
import ServiceRegistry.Text.Utf8
import ServiceRegistry.Text.Whole
import ServiceRegistry.Validation
import ServiceRegistry.Watch
import ServiceRegistry.Wire.Catalog
import ServiceRegistry.Wire.Event
import ServiceRegistry.Wire.Instance
import ServiceRegistry.Wire.Lease
import ServiceRegistry.Wire.Replication
import ServiceRegistry.Wire.Settings
import ServiceRegistry.Wire.Status
import ServiceRegistry.Wire.Watch
import ServiceRegistry.Yaml.Decode
import ServiceRegistry.Yaml.Gap
import ServiceRegistry.Yaml.Indented
import ServiceRegistry.Yaml.Node
import ServiceRegistry.Yaml.Node.Reader
import ServiceRegistry.Yaml.Printer
import ServiceRegistry.Yaml.Quoted
import ServiceRegistry.Yaml.Scalar
import ServiceRegistry.Yaml.Token
import ServiceRegistry.Yaml.Token.Lexer
import ServiceRegistry.Yaml.Token.Name
import ServiceRegistry.Yaml.Unquoted
import ServiceRegistry.Proofs.Registry.StatusOrder
import ServiceRegistry.Proofs.Cluster.Workers
import ServiceRegistry.Proofs.Cluster.Requeue
import ServiceRegistry.Proofs.Replication.Emission
import ServiceRegistry.Proofs.Replication.Sequence
import ServiceRegistry.Proofs.Replication.Coalescing
import ServiceRegistry.Proofs.Cluster.Traffic
import ServiceRegistry.Proofs.Registry.Override
import ServiceRegistry.Proofs.Registry.Representation
import ServiceRegistry.Proofs.Eviction.Departure
import ServiceRegistry.Proofs.Replication.Independence
import ServiceRegistry.Proofs.Cluster.Turns
import ServiceRegistry.Proofs.Cache.Freshness
import ServiceRegistry.Proofs.Watch.Stream
import ServiceRegistry.Proofs.Metrics.Balance
import ServiceRegistry.Proofs.Wire.Lossless
import ServiceRegistry.Proofs.Replication.Calls
import ServiceRegistry.Proofs.Replication.Liveness
import ServiceRegistry.Proofs.Registry.Outranked
import ServiceRegistry.Proofs.Eviction.Clearance
import ServiceRegistry.Proofs.Cache.Memo
import ServiceRegistry.Proofs.Replication.Retry
import ServiceRegistry.Proofs.Node.Isolation
import ServiceRegistry.Proofs.Cache.Desk
import ServiceRegistry.Proofs.Replication.Crowding
import ServiceRegistry.Proofs.Node.Reconciliation
import ServiceRegistry.Proofs.Api.DefaultLease
import ServiceRegistry.Proofs.Registry.Views
import ServiceRegistry.Proofs.Catalog.Histogram
import ServiceRegistry.Proofs.Registry.FirstUp
import ServiceRegistry.Proofs.Replication.Spelling
import ServiceRegistry.Proofs.Cache.Scan
import ServiceRegistry.Proofs.Registry.Retention
