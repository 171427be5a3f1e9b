import Inmem.Core.Buffered
import Inmem.Core.Clock
import Inmem.Core.Crash
import Inmem.Core.Decimal
import Inmem.Core.Files
import Inmem.Core.Journal
import Inmem.Core.Lts
import Inmem.Core.Merge
import Inmem.Core.Occupancy
import Inmem.Core.Probe
import Inmem.Core.Prog
import Inmem.Core.Ring
import Inmem.Core.Scan
import Inmem.Core.Serial
import Inmem.Core.Wildcard
import Inmem.Core.Window
import Inmem.L1Encoding.Bytes
import Inmem.L1Encoding.Glob
import Inmem.L1Encoding.GlobMatch
import Inmem.L1Encoding.Resp
import Inmem.L1Encoding.RespBounds
import Inmem.L1Encoding.RespCodec
import Inmem.L1Encoding.RespDecode
import Inmem.L1Encoding.RespFrame
import Inmem.L1Encoding.RespHeader
import Inmem.L1Encoding.RespRanges
import Inmem.L2Machine.FlatMap
import Inmem.L2Machine.FlatMapOps
import Inmem.L2Machine.FlatMapRefine
import Inmem.L2Machine.FlatMapSlots
import Inmem.L2Machine.GhostQueue
import Inmem.L2Machine.LazyDelete
import Inmem.L2Machine.PolicyInv
import Inmem.L2Machine.PolicyRun
import Inmem.L2Machine.S3Fifo
import Inmem.L2Machine.Victims
import Inmem.L3Store.Accounting
import Inmem.L3Store.Cache
import Inmem.L3Store.Checked
import Inmem.L3Store.Demotion
import Inmem.L3Store.Dump
import Inmem.L3Store.Eviction
import Inmem.L3Store.KeyOps
import Inmem.L3Store.Keyspace
import Inmem.L3Store.QueueBound
import Inmem.L3Store.Ranges
import Inmem.L3Store.Refine
import Inmem.L3Store.Restore
import Inmem.L3Store.Shard
import Inmem.L3Store.ShardRefine
import Inmem.L3Store.SortedSets
import Inmem.L3Store.Store
import Inmem.L3Store.Unchanged
import Inmem.L3Store.Value
import Inmem.L4App.AuthGate
import Inmem.L4App.Chunking
import Inmem.L4App.Classify
import Inmem.L4App.Commands
import Inmem.L4App.Conn
import Inmem.L4App.Deadlines
import Inmem.L4App.DumpLimits
import Inmem.L4App.Effects
import Inmem.L4App.ExpireFlags
import Inmem.L4App.Failure
import Inmem.L4App.FastPath
import Inmem.L4App.Inline
import Inmem.L4App.Lag
import Inmem.L4App.Locality
import Inmem.L4App.LogFile
import Inmem.L4App.LogSubset
import Inmem.L4App.Persistence
import Inmem.L4App.Registry
import Inmem.L4App.ReplicaLink
import Inmem.L4App.Replies
import Inmem.L4App.ReplyFrames
import Inmem.L4App.Restart
import Inmem.L4App.Resync
import Inmem.L4App.SaveFile
import Inmem.L4App.ScoreText
import Inmem.L4App.Session
import Inmem.L4App.SetForms
import Inmem.L4App.SetOptions
import Inmem.L4App.SingleKey
import Inmem.L4App.Snapshot
import Inmem.L4App.TimeShift
import Inmem.L4App.Timeless
import Inmem.L4App.TornTail
import Inmem.L4App.Uring
import Inmem.L4App.Writes
import Inmem.L4App.WrongType
import Inmem.L5Concurrency.Cluster
import Inmem.L5Concurrency.Handshake
import Inmem.L5Concurrency.Increments
import Inmem.L5Concurrency.Layout
import Inmem.L5Concurrency.LogOrder
import Inmem.L5Concurrency.PointInTime
import Inmem.L5Concurrency.Serializable
import Inmem.L5Concurrency.Sweep
import Inmem.L5Concurrency.Threads
import Inmem.L5Concurrency.WorkQueue
