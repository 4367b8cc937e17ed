import EvmState.Lib.OrderedMap
import EvmState.Lib.Timeline
import EvmState.Lib.Hex
import EvmState.Lib.Fallible
import EvmState.Eth
import EvmState.Params
import EvmState.Lifecycle
import EvmState.Persist
import EvmState.BlockProjection
import EvmState.Lib.Json
import EvmState.Queries
import EvmState.Reference
import EvmState.BlockRows
import EvmState.Replay
import EvmState.Encoding
import EvmState.Lib.Crash
import EvmState.Bootstrap
import EvmState.Summary
import EvmState.Compaction
import EvmState.CompactionSteps
import EvmState.CompactionRuns
import EvmState.Ingestion
import EvmState.Preflight
import EvmState.Incremental
import EvmState.Filtering
import EvmState.Lib.Upsert
import EvmState.DbOut
import EvmState.DbOutRows
import EvmState.SinksAgree
import EvmState.EventLog
import EvmState.CodeReferences
import EvmState.DurableProgress
import EvmState.Control
import EvmState.PrepareRuns
import EvmState.Lib.Rlp
import EvmState.Proof
import EvmState.Header
import EvmState.Rpc
import EvmState.Sorting
import EvmState.Deletions
import EvmState.Continuity
import EvmState.Cursor
import EvmState.Lib.JsonText
import EvmState.Reader
import EvmState.Chunks
import EvmState.Build
import EvmState.Checksum
import EvmState.Lib.Emission
import EvmState.Persistence
import EvmState.ArrayOrder
import EvmState.HeaderCodec
import EvmState.AccountLists
import EvmState.CanonicalJson
import EvmState.Lib.FileTree
import EvmState.Paths
import EvmState.Usage
import EvmState.HostBinds
import EvmState.Partitions
import EvmState.Supervision
import EvmState.PrettyJson
import EvmState.Recovery
import EvmState.RecoveryRuns
import EvmState.Lib.Lines
import EvmState.Portable
import EvmState.Importer
import EvmState.Retention
import EvmState.Sharing
import EvmState.Transfer
import EvmState.Exportable
import EvmState.Portability
import EvmState.Lib.Newest
import EvmState.Publication
import EvmState.Export
