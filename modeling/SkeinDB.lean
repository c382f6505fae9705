import SkeinDB.Codec.LittleEndian
import SkeinDB.Codec.BigEndian
import SkeinDB.Codec.Reader
import SkeinDB.Codec.Checked
import SkeinDB.Codec.Leb128
import SkeinDB.Codec.Stream
import SkeinDB.Codec.Lines
import SkeinDB.Text.Utf8
import SkeinDB.Text.Wildcards
import SkeinDB.Format.Primitives
import SkeinDB.Format.Checksum
import SkeinDB.Format.RecordFrame
import SkeinDB.Format.FileHeader
import SkeinDB.Wal.Record
import SkeinDB.Wal.Log
import SkeinDB.Wal.TornTail
import SkeinDB.Wal.Recovery
import SkeinDB.Manifest.Record
import SkeinDB.Manifest.TornTail
import SkeinDB.Delta.Resolution
import SkeinDB.Values.Patch
import SkeinDB.Values.PatchSafety
import SkeinDB.Values.Store
import SkeinDB.Values.Materialize
import SkeinDB.Values.Compaction
import SkeinDB.Values.Health
import SkeinDB.Values.Fidelity
import SkeinDB.Values.Import
import SkeinDB.Values.LearnedIndex
import SkeinDB.Values.Atomicity
import SkeinDB.Values.Segment
import SkeinDB.Values.Persistence
import SkeinDB.Values.Depth
import SkeinDB.Values.ChainBound
import SkeinDB.Values.RoundTrip
import SkeinDB.Values.Transfer
import SkeinDB.Ann.Hnsw
import SkeinDB.Ann.HnswRuns
import SkeinDB.Values.Deferral
import SkeinDB.Search.SortedBlocks
import SkeinDB.Runs.Block
import SkeinDB.Runs.File
import SkeinDB.Runs.Safety
import SkeinDB.Runs.Integrity
import SkeinDB.Runs.Lsm
import SkeinDB.Rows.Version
import SkeinDB.Rows.Segment
import SkeinDB.Rows.RowDir
import SkeinDB.Rows.Mvcc
import SkeinDB.Rows.Resolution
import SkeinDB.Rows.VisibleIndex
import SkeinDB.Consensus.Position
import SkeinDB.Consensus.Ballots
import SkeinDB.Consensus.LeaderLog
import SkeinDB.Consensus.Mandates
import SkeinDB.Consensus.Newest
import SkeinDB.Consensus.OrderStatistic
import SkeinDB.Consensus.KeyedMerge
import SkeinDB.Cluster.State
import SkeinDB.Cluster.Election
import SkeinDB.Cluster.Replication
import SkeinDB.Cluster.System
import SkeinDB.Cluster.Safety
import SkeinDB.Cluster.Replica
import SkeinDB.Cluster.LogView
import SkeinDB.Cluster.Completeness
import SkeinDB.Cluster.Fencing
import SkeinDB.Cluster.Membership
import SkeinDB.Cluster.Roster
import SkeinDB.Cluster.Succession
import SkeinDB.Cluster.Delivery
import SkeinDB.Cluster.PrimaryWrites
import SkeinDB.Cluster.Snapshot
import SkeinDB.Cluster.SnapshotPaging
import SkeinDB.Cluster.CatchUp
import SkeinDB.Cluster.Announcements
import SkeinDB.Cluster.Causality
import SkeinDB.Cluster.CommittedRead
import SkeinDB.Cluster.CommitPosition
import SkeinDB.Encryption.Envelope
import SkeinDB.Encryption.KeyRing
import SkeinDB.Encryption.EncryptedStore
import SkeinDB.Encryption.Sweep
import SkeinDB.Encryption.Rotation
import SkeinDB.Values.ObjectsPull
import SkeinDB.Values.ObjectsFetch
import SkeinDB.Values.CheckedPull
import SkeinDB.Values.PullTermination
import SkeinDB.Transition.Fallible
import SkeinDB.Tables.Table
import SkeinDB.Tables.State
import SkeinDB.Tables.Statements
import SkeinDB.Tables.Borrow
import SkeinDB.Tables.Atomicity
import SkeinDB.Tables.Maintenance
import SkeinDB.Transition.Cursor
import SkeinDB.Tables.Literals
import SkeinDB.Changes.Log
import SkeinDB.Changes.Subscription
import SkeinDB.Changes.Feed
import SkeinDB.Codec.Journal
import SkeinDB.Changes.Sidecar
import SkeinDB.Changes.CrashMerge
import SkeinDB.Changes.ForensicChain
import SkeinDB.Queries.Expr
import SkeinDB.Queries.Interned
import SkeinDB.Queries.Select
import SkeinDB.Queries.Sorting
import SkeinDB.Queries.Joins
import SkeinDB.Queries.Forms
import SkeinDB.Queries.Grouping
import SkeinDB.Queries.Windows
import SkeinDB.Queries.IndexScan
import SkeinDB.Search.Gather
import SkeinDB.Relations.Grouping
import SkeinDB.Relations.Join
import SkeinDB.Search.Comparison
import SkeinDB.Search.FloatOrder
import SkeinDB.Tables.Postings
import SkeinDB.Queries.Syntax
import SkeinDB.Queries.Like
import SkeinDB.Queries.Execute
import SkeinDB.Queries.References
import SkeinDB.Tables.Export
import SkeinDB.Tables.Reload
import SkeinDB.Tables.Resync
import SkeinDB.Tables.Replay
import SkeinDB.Tables.RoundTrip
import SkeinDB.Tables.Edits
import SkeinDB.Tables.Writes
import SkeinDB.Tables.Calls
import SkeinDB.Tables.Keyed
import SkeinDB.Tables.Lifetime
import SkeinDB.Tables.Forgotten
import SkeinDB.Tables.Deletion
import SkeinDB.Queries.AsOf
import SkeinDB.Queries.TimeTravel
import SkeinDB.Queries.Views
import SkeinDB.Queries.History
import SkeinDB.Queries.Stability
import SkeinDB.Codec.HashChain
import SkeinDB.Forensic.Chain
import SkeinDB.Forensic.Proofs
import SkeinDB.Tables.Contents
import SkeinDB.Tables.Writable
import SkeinDB.Sessions.Sql
import SkeinDB.Sessions.MySql
import SkeinDB.Sessions.Effects
import SkeinDB.Sessions.Rollback
import SkeinDB.Codec.MerkleTree
import SkeinDB.Forensic.Merkle
import SkeinDB.Text.Identifiers
import SkeinDB.Sessions.BinaryRows
import SkeinDB.Sessions.WindowFunctions
import SkeinDB.Changes.Coverage
import SkeinDB.Calendar.Gregorian
import SkeinDB.Queries.Dates
import SkeinDB.Queries.DateArithmetic
import SkeinDB.Queries.IsoWeek
import SkeinDB.Queries.ToChar
import SkeinDB.Queries.JsonPath
import SkeinDB.Merge.Rows
import SkeinDB.Merge.Laws
import SkeinDB.Merge.Stored
import SkeinDB.Codec.Bitmap
import SkeinDB.Snapshots.ColumnSegment
import SkeinDB.Codec.Buffer
import SkeinDB.Queries.BatchRoundTrip
import SkeinDB.Queries.BatchSafety
import SkeinDB.Copy.Text
import SkeinDB.Copy.Csv
import SkeinDB.Sessions.Savepoints
import SkeinDB.Sessions.Prepared
import SkeinDB.Tables.HistoryGc
import SkeinDB.Queries.HistoryReads
