import Lpad.Base.Bytes
import Lpad.Base.Merge
import Lpad.Base.Run
import Lpad.Base.StdMap
import Lpad.Format.Coding
import Lpad.Format.InternalKey
import Lpad.Format.Status
import Lpad.Enclave.MergeSort
import Lpad.Enclave.ChannelSpec
import Lpad.Enclave.MergeSpec
import Lpad.Enclave.MergeOrder
import Lpad.Enclave.Checker
import Lpad.Enclave.CheckerOrder
import Lpad.Enclave.CheckerCount
import Lpad.Enclave.CheckerIds
import Lpad.Enclave.CheckerHistory
import Lpad.Enclave.CheckerProgress
import Lpad.DB.WriteBatch
import Lpad.DB.WriteQueue
import Lpad.DB.WriteReports
import Lpad.DB.World
import Lpad.DB.WriteHistory
import Lpad.DB.WriteLink
import Lpad.DB.WriteAgreement
import Lpad.DB.Version
import Lpad.DB.VersionSet
import Lpad.DB.CompactionWork
import Lpad.DB.CompactionSpec
import Lpad.DB.CompactionErrors
import Lpad.DB.DropIndependence
import Lpad.DB.CompactionBytes
import Lpad.DB.Database
import Lpad.DB.ChannelBound
import Lpad.Enclave.Host
import Lpad.Enclave.LockDiscipline
import Lpad.Enclave.Lookups
import Lpad.Base.Interval
import Lpad.DB.Levels
import Lpad.DB.LevelEdits
import Lpad.DB.OutputFiles
import Lpad.DB.LevelOrder
import Lpad.Base.Layers
import Lpad.DB.AgeOrder
import Lpad.DB.MergingIterator
import Lpad.DB.OriginalCompaction
import Lpad.DB.DropReads
import Lpad.DB.SnapshotReads
import Lpad.DB.GroupCommit
import Lpad.DB.Get
import Lpad.DB.GetSpec
import Lpad.DB.OpenErrors
import Lpad.Enclave.ProofWork
import Lpad.DB.GetSequence
import Lpad.DB.VersionGet
import Lpad.Base.Frontier
import Lpad.Enclave.Merkle
import Lpad.Enclave.MergeEextrac
import Lpad.Base.Fips180
import Lpad.Enclave.Sha1
import Lpad.Enclave.Sha1Correct
import Lpad.Log.Format
import Lpad.Log.Reader
import Lpad.Log.Writer
import Lpad.Log.Layout
import Lpad.Log.RoundTrip
import Lpad.DB.LogRecovery
import Lpad.Log.FailedAppends
import Lpad.DB.EditCoding
import Lpad.DB.BuilderReplay
import Lpad.DB.Manifest
import Lpad.Base.RefCount
import Lpad.DB.ObsoleteFiles
import Lpad.DB.NeededFiles
import Lpad.Log.Truncation
import Lpad.Base.Keccak
import Lpad.Enclave.Sha3
import Lpad.Enclave.Sha3Correct
import Lpad.Base.Cursor
import Lpad.Table.Merger
import Lpad.Table.MergerCursor
import Lpad.DB.UserIterator
import Lpad.DB.SnapshotMap
import Lpad.DB.UserIteratorCursor
import Lpad.Base.SkipLinks
import Lpad.DB.SkipList
import Lpad.DB.SkipListOrdered
import Lpad.DB.SkipListCursor
import Lpad.DB.SkipMemTable
import Lpad.DB.SkipMemTableReads
import Lpad.Base.Segments
import Lpad.Table.Block
import Lpad.Table.BlockBuilder
import Lpad.Table.BlockLayout
import Lpad.Table.BlockCursor
import Lpad.Table.BlockContained
import Lpad.Base.BitArray
import Lpad.Table.Bloom
import Lpad.Table.FilterBlock
import Lpad.Table.FilterBlockReads
import Lpad.Base.RangeClosure
import Lpad.DB.OverlapClosure
import Lpad.DB.OverlapSearch
import Lpad.DB.BaseLevel
import Lpad.Format.Separator
import Lpad.Base.Crc
import Lpad.Format.Crc32c
import Lpad.Enclave.ZeroCopyBlock
import Lpad.DB.Repair
import Lpad.DB.RepairReads
import Lpad.DB.RepairRuns
