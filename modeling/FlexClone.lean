import FlexClone.Versioned.History
import FlexClone.ByteFile
import FlexClone.Run
import FlexClone.Scorw.Log
import FlexClone.Scorw.VersionCache
import FlexClone.Scorw.CacheTransparency
import FlexClone.Scorw.State
import FlexClone.Scorw.Write
import FlexClone.Scorw.Writev
import FlexClone.Scorw.System
import FlexClone.Scorw.View
import FlexClone.Scorw.WriteRead
import FlexClone.Scorw.Isolation
import FlexClone.Scorw.Extents
import FlexClone.Scorw.Snapshot
import FlexClone.Scorw.AckedWrites
import FlexClone.Scorw.Transaction
import FlexClone.Scorw.Recovery
import FlexClone.Scorw.Durability
import FlexClone.ExchangeSort
import FlexClone.Scorw.Gc
import FlexClone.Scorw.Family
import FlexClone.Scorw.FamilyVersions
import FlexClone.Scorw.Cloning
import FlexClone.Scorw.References
import FlexClone.Scorw.WritevAtomic
import FlexClone.Scorw.InodeLock
import FlexClone.Scorw.AttachLocks
import FlexClone.Scorw.AttachOrder
import FlexClone.CachedFile
import FlexClone.Scorw.CowMoves
import FlexClone.Scorw.CowReads
import FlexClone.Scorw.ActiveMap
import FlexClone.Scorw.FriendVersion
import FlexClone.Scorw.Links
import FlexClone.Scorw.CowStorage
import FlexClone.Scorw.PageCopies
import FlexClone.Scorw.InPlace
import FlexClone.Scorw.FailedCopy
import FlexClone.Scorw.Redirect
import FlexClone.Scorw.Interrupted
import FlexClone.Drain
import FlexClone.Scorw.Sequential
import FlexClone.Scorw.RecoveryOutcome
import FlexClone.Scorw.RecoveryGc
import FlexClone.Scorw.LogFaults
import FlexClone.Loop
import FlexClone.Scorw.LogScan
import FlexClone.PageCache
import FlexClone.Scorw.PageFetch
import FlexClone.Scorw.Ranges
import FlexClone.Scorw.ChildWrites
import FlexClone.Scorw.CopyUp
import FlexClone.Scorw.BlockLocks
import FlexClone.Scorw.CopyRoutines
import FlexClone.Scorw.ReadOnlyRanges
import FlexClone.Bitmap
import FlexClone.Scorw.FriendFile
import FlexClone.Scorw.PendingBlocks
import FlexClone.Scorw.ReadBarrier
import FlexClone.Scorw.ReleaseFile
import FlexClone.Scorw.WritebackLock
import FlexClone.Scorw.CloneAttributes
import FlexClone.Scorw.Reopening
import FlexClone.Heap
import FlexClone.Scorw.InodeMemory
import FlexClone.Scorw.ChildSlots
import FlexClone.LinkedList
import FlexClone.Scorw.PendingPass
import FlexClone.Scorw.ParentLifetime
import FlexClone.Scorw.LogFormat
import FlexClone.Scorw.LockStores
import FlexClone.Scorw.CrashRuns
