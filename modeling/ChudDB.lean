import ChudDB.Lib.Run
import ChudDB.Lib.Bytes
import ChudDB.Lib.Framing
import ChudDB.Wal.Record
import ChudDB.Wal.RecordLemmas
import ChudDB.Wal.Storage
import ChudDB.Wal.Log
import ChudDB.Wal.LogSteps
import ChudDB.Wal.Recovery
import ChudDB.Lib.Loop
import ChudDB.Wal.OrderedLog
import ChudDB.Wal.Cursor
import ChudDB.Wal.Stream
import ChudDB.Wal.StreamPurge
import ChudDB.Wal.StreamOrder
import ChudDB.Lib.Search
import ChudDB.Memtable.Basic
import ChudDB.Memtable.Immutable
import ChudDB.Engine.Basic
import ChudDB.Engine.ReadLaw
import ChudDB.Engine.Registry
import ChudDB.Lib.Heap
import ChudDB.Lib.Merge
import ChudDB.Compaction.Merge
import ChudDB.Compaction.Batches
import ChudDB.Engine.Interleaving
import ChudDB.Engine.SnapshotLoss
import ChudDB.Engine.Coverage
import ChudDB.Engine.Sequential
import ChudDB.Engine.SnapshotConsistency
import ChudDB.Lib.SparseIndex
import ChudDB.Sstable.Bloom
import ChudDB.Sstable.Reader
import ChudDB.Sstable.Blocks
import ChudDB.Sstable.Layout
import ChudDB.Sstable.RoundTrip
import ChudDB.Engine.DiskFlush
import ChudDB.Memtable.SkipList
import ChudDB.Memtable.BTree
import ChudDB.Engine.Startup
import ChudDB.Engine.Restart
import ChudDB.Cluster.Envelope
import ChudDB.Cluster.RawRepair
import ChudDB.Cluster.Reconcile
import ChudDB.Cluster.Coordinator
import ChudDB.Cluster.Stamping
import ChudDB.Cluster.Config
import ChudDB.Cluster.Gossiper
import ChudDB.Cluster.RangeMap
import ChudDB.Cluster.RangeMapGossip
import ChudDB.Cluster.Tablet
import ChudDB.Cluster.AntiEntropy
import ChudDB.Cluster.Replica
import ChudDB.Cluster.SplitRange
import ChudDB.Engine.Acknowledgement
import ChudDB.Engine.WriteProgress
import ChudDB.Wal.LsnOrder
import ChudDB.Cluster.RepairRound
import ChudDB.Cluster.RepairWalk
import ChudDB.Engine.Pins
import ChudDB.Engine.ReadRace
import ChudDB.Engine.Scan
import ChudDB.Engine.TableFailures
import ChudDB.Wal.FailedAppend
import ChudDB.Cluster.Ownership
import ChudDB.Cluster.RepairKeys
import ChudDB.Compaction.TombstoneGate
import ChudDB.Cluster.Settling
import ChudDB.Cluster.TabletStability
import ChudDB.Cluster.RawScan
import ChudDB.Cluster.Timestamp
import ChudDB.Engine.TokenBucket
import ChudDB.Lib.BinaryCounter
import ChudDB.Lib.Checked
import ChudDB.Sstable.MerkleTree
import ChudDB.Sstable.Parsing
import ChudDB.Lib.Linked
import ChudDB.Lib.Slices
import ChudDB.Memtable.ArrayBTree
import ChudDB.Memtable.BTreeLayout
import ChudDB.Memtable.BTreeShape
import ChudDB.Memtable.LinkedSkipList
import ChudDB.Memtable.LinkedSkipListInsert
import ChudDB.Memtable.LinkedSkipListRun
import ChudDB.Cluster.ProposalIdentity
import ChudDB.Lib.DoublyLinked
import ChudDB.Lib.Recency
import ChudDB.Sstable.BlockCache
import ChudDB.Sstable.BlockCacheRun
import ChudDB.Cluster.RepairCluster
import ChudDB.Cluster.RingCluster
import ChudDB.Sstable.BlockManager
