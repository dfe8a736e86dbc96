import ScuDb.Foundations.Program
import ScuDb.Foundations.Search
import ScuDb.Foundations.Memory
import ScuDb.Foundations.Refinement
import ScuDb.Foundations.Comparator
import ScuDb.Foundations.Partition
import ScuDb.Foundations.SortedEntries
import ScuDb.Common.Config
import ScuDb.Common.LostWakeup
import ScuDb.Common.RWMutex
import ScuDb.Page.HeaderPage
import ScuDb.Page.HeaderPageBytes
import ScuDb.Page.HeaderMap
import ScuDb.Page.BPlusTreePage
import ScuDb.Page.BPlusTreePageLemmas
import ScuDb.Page.BPlusTreePageOutcome
import ScuDb.Page.TablePage
import ScuDb.Page.TablePageLayout
import ScuDb.Page.TablePageFrame
import ScuDb.Page.FreeSpace
import ScuDb.Index.BPlusTree
import ScuDb.Index.Execution
import ScuDb.Index.PoolUse
import ScuDb.Index.DirtyUse
import ScuDb.Index.PinBalance
import ScuDb.Index.DirtyPages
import ScuDb.Index.DirtyRelease
import ScuDb.Index.WrittenBack
import ScuDb.Index.Shape
import ScuDb.Index.Standing
import ScuDb.Index.Latching
import ScuDb.Index.Releasing
import ScuDb.Index.Rearrangement
import ScuDb.Index.Splitting
import ScuDb.Index.Insertion
import ScuDb.Index.Balancing
import ScuDb.Index.Moving
import ScuDb.Index.Underflow
import ScuDb.Index.Borrowing
import ScuDb.Index.Removal
import ScuDb.Index.Contract
import ScuDb.Index.PinsReturned
import ScuDb.Index.Structure
import ScuDb.Index.TreeChecker
import ScuDb.Index.FirstKeys
import ScuDb.Index.RootRecord
import ScuDb.Index.IndexIterator
import ScuDb.Index.FullScan
import ScuDb.Index.Regroup
import ScuDb.Index.Sharing
import ScuDb.Index.Root
import ScuDb.Disk.DiskManager
import ScuDb.Disk.ReadAfterWrite
import ScuDb.Disk.PageOffsets
import ScuDb.Foundations.LinkedList
import ScuDb.Hash.ExtendibleHash
import ScuDb.Hash.MapRefinement
import ScuDb.Hash.Directory
import ScuDb.Hash.ConcurrentInsert
import ScuDb.Hash.SplittingDepth
import ScuDb.Buffer.LruReplacer
import ScuDb.Buffer.RecencyQueue
import ScuDb.Project1.LruReplacer
import ScuDb.Project1.BufferPoolManager
import ScuDb.Buffer.BufferPoolManager
import ScuDb.Buffer.FrameClasses
import ScuDb.Buffer.PoolInvariant
import ScuDb.Buffer.Transparency
import ScuDb.Buffer.EvictionOrder
import ScuDb.Concurrency.Transaction
import ScuDb.Table.TableHeap
import ScuDb.Table.HeapChain
import ScuDb.Page.SameTuples
import ScuDb.Table.HeapContents
import ScuDb.Table.TableScan
import ScuDb.Table.HeapInsertion
import ScuDb.Concurrency.TransactionManager
import ScuDb.Concurrency.Commit
import ScuDb.Concurrency.Abort
import ScuDb.Index.CheckedTree
import ScuDb.Index.ConcurrentCalls
import ScuDb.Index.LatchedLeaves
import ScuDb.Index.ConcurrentScan
import ScuDb.Foundations.Asking
import ScuDb.Index.OutOfFrames
import ScuDb.Foundations.Watching
import ScuDb.Index.Watched
import ScuDb.Index.WatchedAccess
import ScuDb.Index.Confined
import ScuDb.Index.ConfinedInsertion
import ScuDb.Index.ConfinedRemoval
import ScuDb.Index.LatchCrabbing
import ScuDb.Vtable.Disconnect
import ScuDb.Vtable.VirtualTable
import ScuDb.Vtable.Cursor
import ScuDb.Vtable.KeySize
import ScuDb.Vtable.BestIndex
import ScuDb.Vtable.GlobalTransaction
import ScuDb.Index.OtherRecords
import ScuDb.Vtable.TableNames
import ScuDb.Vtable.IndexAgreement
import ScuDb.Foundations.PartialInverse
import ScuDb.Foundations.SignedWord
import ScuDb.Type.IntegerParentType
import ScuDb.Type.ExactArithmetic
import ScuDb.Foundations.Layout
import ScuDb.Foundations.LittleEndian
import ScuDb.Type.Value
import ScuDb.Catalog.Schema
import ScuDb.Table.Tuple
import ScuDb.Table.TupleRoundTrip
import ScuDb.Type.Comparison
import ScuDb.Index.GenericKey
import ScuDb.Page.InternalLookup
import ScuDb.Index.CheckPasses
import ScuDb.Foundations.Cells
import ScuDb.Foundations.Ledger
import ScuDb.Concurrency.Atomicity
import ScuDb.Page.StoredLeaf
import ScuDb.Foundations.DecimalText
import ScuDb.Type.Cast
import ScuDb.Type.MixedComparison
import ScuDb.Vtable.ColumnRoundTrip
import ScuDb.Foundations.Fields
import ScuDb.Vtable.CreateStatement
import ScuDb.Foundations.Records
import ScuDb.Foundations.Simulation
import ScuDb.Page.PageBytes
import ScuDb.Page.PageBytesArray
import ScuDb.Page.LeafBytes
import ScuDb.Page.InternalBytes
import ScuDb.Index.StoredTree
import ScuDb.Index.Stores
import ScuDb.Index.StoredInsertion
import ScuDb.Index.StoredRemoval
import ScuDb.Index.StoredRuns
import ScuDb.Index.Reconnecting
import ScuDb.Index.StoredOnDisk
import ScuDb.Index.StoredScan
