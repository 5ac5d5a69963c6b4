import MetadataService.Loops
import MetadataService.ByteMemory
import MetadataService.LinkedChain
import MetadataService.DataItem
import MetadataService.MurmurHash
import MetadataService.ChainOps
import MetadataService.MemoryNode
import MetadataService.NodeLayout
import MetadataService.CallEffects
import MetadataService.NodeRuns
import MetadataService.ChainSafety
import MetadataService.MapRefinement
import MetadataService.MetaExchange
import MetadataService.DirectPath
import MetadataService.LinkedRing
import MetadataService.RequestLedger
import MetadataService.SyncCompletion
import MetadataService.CompiledScheduler
import MetadataService.PathResolution
import MetadataService.ReserveSpace
import MetadataService.SelfAddressing
import MetadataService.AddrCache
import MetadataService.StatFile
import MetadataService.CacheInvalidation
import MetadataService.Tracing
import MetadataService.MetaDecoding
import MetadataService.RemoteIdentifiers
import MetadataService.WrappingBump
import MetadataService.BufferAllocator
import MetadataService.TableSizing
import MetadataService.PutBranches
import MetadataService.HighWater
import MetadataService.LogAllocator
import MetadataService.MurmurHashLen
import MetadataService.PathHash
import MetadataService.Crc
import MetadataService.InodeChecksum
import MetadataService.Interleaving
import MetadataService.SpinLock
import MetadataService.HazardPointer
import MetadataService.HeapCells
import MetadataService.RadixTree
import MetadataService.SplitOrder
import MetadataService.SplitTable
import MetadataService.SplitList
import MetadataService.SplitChanges
import MetadataService.SplitBuckets
import MetadataService.SplitItems
import MetadataService.SplitRuns
import MetadataService.BucketHashing
import MetadataService.KeySpace
import MetadataService.RingLinks
import MetadataService.MarkedList
import MetadataService.SplitThreads
import MetadataService.SplitMemory
import MetadataService.Linearization
import MetadataService.SplitSafety
import MetadataService.SplitAtomicity
import MetadataService.SplitQuiescence
import MetadataService.HazardSafety
import MetadataService.QueuePairing
