import Ferrocache.Lib.HashMap
import Ferrocache.Text
import Ferrocache.Index.Namespaced
import Ferrocache.Index.Invariant
import Ferrocache.Index.Live
import Ferrocache.Index.Semantic
import Ferrocache.Index.View
import Ferrocache.Index.Directory
import Ferrocache.Server.Isolation
import Ferrocache.Wal.Bytes
import Ferrocache.Wal.File
import Ferrocache.Node
import Ferrocache.Index.Loss
import Ferrocache.Lib.Edits
import Ferrocache.Node.Agreement
import Ferrocache.Node.Dimension
import Ferrocache.Node.Answers
import Ferrocache.Node.Effect
import Ferrocache.Node.Sound
import Ferrocache.Node.Provenance
import Ferrocache.Lib.OrderedMap
import Ferrocache.Cluster.State
import Ferrocache.Cluster.Insert
import Ferrocache.Cluster.Progress
import Ferrocache.Cluster.Replicas
import Ferrocache.Cluster.Stored
import Ferrocache.Cluster.Delete
import Ferrocache.Cluster.Fanout
import Ferrocache.Index.Restore
import Ferrocache.Lib.Distinct
import Ferrocache.Cluster.Detector
import Ferrocache.Cluster.Ring
import Ferrocache.Cluster.Reconcile
import Ferrocache.Node.GroupCommit
import Ferrocache.Cluster.Query
import Ferrocache.Cluster.Forwarding
import Ferrocache.Index.Ids
import Ferrocache.Node.Charge
import Ferrocache.Node.Waiting
import Ferrocache.Node.Acknowledged
import Ferrocache.Node.Home
import Ferrocache.Node.Doom
import Ferrocache.Cluster.Durable
import Ferrocache.Cluster.Repair
import Ferrocache.Lib.Codec
import Ferrocache.Wal.Snapshot
import Ferrocache.Wal.Json
import Ferrocache.Wal.Damage
import Ferrocache.Index.Nearest
import Ferrocache.Index.Owner
import Ferrocache.Index.Reload
import Ferrocache.Index.Evict
import Ferrocache.Cluster.Retry
import Ferrocache.Cluster.Walk
import Ferrocache.Cluster.Escalation
import Ferrocache.Cluster.Silence
import Ferrocache.Index.Components
import Ferrocache.Index.Replay
import Ferrocache.Index.Radius
import Ferrocache.Index.Reaper
import Ferrocache.Index.Fifo
import Ferrocache.Lib.Top
import Ferrocache.Index.Survivors
import Ferrocache.Node.Batching
import Ferrocache.Lib.Words
import Ferrocache.Index.Canonical
import Ferrocache.Lib.Escape
import Ferrocache.Lib.Exposition
import Ferrocache.Server.Metrics
import Ferrocache.Lib.Turns
import Ferrocache.Node.Capacity
import Ferrocache.Node.Service
import Ferrocache.Lib.Tally
import Ferrocache.Server.Counters
import Ferrocache.Cluster.Convergence
import Ferrocache.Cluster.Invalidation
import Ferrocache.Node.Files
import Ferrocache.Client.Middleware
import Ferrocache.Client.Origin
import Ferrocache.Node.Blocking
import Ferrocache.Node.Ledger
import Ferrocache.Index.Texts
import Ferrocache.Node.Lookup
