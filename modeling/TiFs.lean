import TiFs.Store
import TiFs.HashFsError
import TiFs.Directory
import TiFs.Links
import TiFs.Rename
import TiFs.Namespace
import TiFs.LinkMirror
import TiFs.Dangling
import TiFs.BlockSplitter
import TiFs.BlockTxn
import TiFs.BlockOps
import TiFs.RefCounting
import TiFs.BlockData
import TiFs.WritePlanning
import TiFs.FileMap
import TiFs.WriteCall
import TiFs.BlockRefinement
import TiFs.CallRefinement
import TiFs.StoredFile
import TiFs.CallOrder
import TiFs.CallProgress
import TiFs.FileBytes
import TiFs.BatchWrites
import TiFs.BlockRead
import TiFs.ReadBack
import TiFs.ConcurrentWrites
import TiFs.FileHandle
import TiFs.FlushedWrites
import TiFs.KeyCodec
import TiFs.KeyRanges
import TiFs.CriticalSection
import TiFs.LockExclusion
import TiFs.FsInit
import TiFs.FileHash
import TiFs.HashCoherence
import TiFs.BlockEffects
import TiFs.SnapshotReads
import TiFs.RacingRead
import TiFs.Snapshot
import TiFs.SnapshotRecords
import TiFs.SnapshotCopy
import TiFs.SnapshotProgress
import TiFs.SnapshotRuns
import TiFs.SnapshotTree
import TiFs.SnapshotConsistency
import TiFs.HashFsInterface
import TiFs.GrpcMessages
import TiFs.GrpcService
import TiFs.GrpcTransparency
import TiFs.HandleReads
import TiFs.KeyScopes
import TiFs.InodeReservation
import TiFs.Operations
import TiFs.Orphans
import TiFs.ContentAddressing
import TiFs.ReadValidation
import TiFs.WriteOrder
import TiFs.DirectoryListing
import TiFs.InodeKinds
import TiFs.RemovedDirectories
import TiFs.DirectoryForest
import TiFs.CopyTermination
import TiFs.Library.Utf8
import TiFs.Lookup
import TiFs.SnapshotEntry
import TiFs.Names
import TiFs.Attributes
import TiFs.SetAttr
import TiFs.LookupAttr
import TiFs.CloneRetries
import TiFs.FullHash
import TiFs.UnlinkEffect
import TiFs.FailedUnlink
import TiFs.SizeLaw
import TiFs.MountOptions
import TiFs.BatchMutate
import TiFs.CounterIncrements
import TiFs.HashesFile
import TiFs.ScopedRecords
import TiFs.DirectoryReads
import TiFs.HashQueries
import TiFs.ErrorReplies
import TiFs.LockKeys
import TiFs.WriteErrors
import TiFs.UploadPlan
import TiFs.OneCall
import TiFs.TaskRuns
import TiFs.PendingCounts
import TiFs.WriteOverlay
import TiFs.UploadModes
import TiFs.Library.CheckedWord
import TiFs.SplitterArithmetic
import TiFs.FsConfig
import TiFs.HandleTable
import TiFs.ClientMux
import TiFs.BlockReassembly
import TiFs.KeyFamilies
import TiFs.LazyLockMap
import TiFs.PipeStage
import TiFs.Library.WaitingRoomProgress
import TiFs.LockProgress
import TiFs.Library.CommitLog
import TiFs.Library.WritesOnly
import TiFs.MiniTransactions
import TiFs.AtomicCalls
import TiFs.CallFootprints
import TiFs.MountedClients
import TiFs.BlockCollection
import TiFs.InodeUses
import TiFs.Library.RangeSet
import TiFs.ReadAhead
import TiFs.ConnectionPool
import TiFs.NameHistory
import TiFs.ParsedKeys
import TiFs.HashCompanion
import TiFs.InodeHistory
