import BrzMetrics.Api
import BrzMetrics.ApiCount
import BrzMetrics.Atomicity
import BrzMetrics.Attempts
import BrzMetrics.Building
import BrzMetrics.Bytes
import BrzMetrics.CallLedger
import BrzMetrics.Canonical
import BrzMetrics.ChunkLog
import BrzMetrics.ChunkShape
import BrzMetrics.Chunks
import BrzMetrics.Connections
import BrzMetrics.Cumulative
import BrzMetrics.Cursor
import BrzMetrics.Decimal
import BrzMetrics.Exclusion
import BrzMetrics.Exports
import BrzMetrics.Exposition
import BrzMetrics.History
import BrzMetrics.Interleave
import BrzMetrics.KeyedStore
import BrzMetrics.Labels
import BrzMetrics.LenCalls
import BrzMetrics.Linearize
import BrzMetrics.Liveness
import BrzMetrics.Loads
import BrzMetrics.MergedGauges
import BrzMetrics.Metric
import BrzMetrics.Moments
import BrzMetrics.Observer
import BrzMetrics.Ownership
import BrzMetrics.Plan
import BrzMetrics.Process
import BrzMetrics.ProcessHistory
import BrzMetrics.Progress
import BrzMetrics.Prometheus
import BrzMetrics.Read
import BrzMetrics.Recording
import BrzMetrics.Registry
import BrzMetrics.RegistryLog
import BrzMetrics.RegistryStore
import BrzMetrics.ReleaseAcquire
import BrzMetrics.Representation
import BrzMetrics.Resource
import BrzMetrics.Samples
import BrzMetrics.Saturating
import BrzMetrics.Scalar
import BrzMetrics.ScalarCalls
import BrzMetrics.Scrapes
import BrzMetrics.Shadows
import BrzMetrics.ShardInv
import BrzMetrics.Slices
import BrzMetrics.Snapshot
import BrzMetrics.SortBy
import BrzMetrics.State
import BrzMetrics.StateRecords
import BrzMetrics.Stream
import BrzMetrics.TextFormat
import BrzMetrics.Traversal
import BrzMetrics.Updates
import BrzMetrics.Values
import BrzMetrics.Views
import BrzMetrics.Visit
import BrzMetrics.VisitCalls
import BrzMetrics.Visitor
import BrzMetrics.WaitFree
import BrzMetrics.Watch
import BrzMetrics.WeakShards
import BrzMetrics.WeakSound
import BrzMetrics.WeakTraversals
import BrzMetrics.Writers
