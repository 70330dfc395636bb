import WaveSpan.Lib.Prog
import WaveSpan.Lib.Escrow
import WaveSpan.Lib.Int64
import WaveSpan.Collections.Command
import WaveSpan.Collections.Lookup
import WaveSpan.Collections.Scores
import WaveSpan.Collections.Dedup
import WaveSpan.Collections.Ledger
import WaveSpan.Collections.Conservation
import WaveSpan.Collections.Reconcile
import WaveSpan.Collections.Snapshot
import WaveSpan.Records.Causal
import WaveSpan.Records.Interleave
import WaveSpan.Records.Identity
import WaveSpan.Records.Evict
import WaveSpan.Records.LiveKeys
import WaveSpan.Records.Scan
import WaveSpan.Records.Pages
import WaveSpan.Records.MinAck
import WaveSpan.Records.Batcher
import WaveSpan.Membership.Merge
import WaveSpan.Backup.Stream
import WaveSpan.Backup.Repaired
import WaveSpan.Backup.Cut
import WaveSpan.Backup.Selection
import WaveSpan.Backup.Reshard
import WaveSpan.Backup.Destination
import WaveSpan.Tunables.Converge
import WaveSpan.Graph.Index
import WaveSpan.Graph.Rebuild
import WaveSpan.Cypher.Limits
import WaveSpan.Cypher.Pieces
import WaveSpan.Cypher.Render
import WaveSpan.Cypher.Literals
import WaveSpan.Vector.LiveMap
import WaveSpan.Vector.HnswRuns
import WaveSpan.Vector.Exact
import WaveSpan.Vector.Rebucket
import WaveSpan.Vector.Ring
import WaveSpan.Vector.Store
import WaveSpan.Vector.Training
import WaveSpan.Cache.Bloom
import WaveSpan.Cache.Directory
import WaveSpan.Placement.Select
import WaveSpan.Records.Holders
import WaveSpan.Records.Fanout
import WaveSpan.Records.Read
import WaveSpan.Records.Retry
import WaveSpan.Collections.Pacing
import WaveSpan.Collections.Grants
import WaveSpan.Collections.Counters
import WaveSpan.Collections.Codec
import WaveSpan.Collections.Service
import WaveSpan.Sdk.LeasedBudget
