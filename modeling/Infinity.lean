import Infinity.Wal.CheckpointSafety
import Infinity.Transactions.Snapshot
import Infinity.Compaction.Switch
import Infinity.Buffer.Runs
import Infinity.Transactions.LogOrder
import Infinity.Wal.Restart
import Infinity.Catalog.BottomHalf
import Infinity.Catalog.Reads
import Infinity.Catalog.Cleanup
import Infinity.Replay.Identity
import Infinity.Compaction.Rollback
import Infinity.Wal.GlobalDelta
import Infinity.Storage.IndexJson
import Infinity.Fst.Scan
import Infinity.Inverting.Ring
import Infinity.Search.ReaderCache
import Infinity.Search.OrIterator
import Infinity.Search.QueryTree
import Infinity.Search.FilterNext
import Infinity.Search.WandSearch
import Infinity.Storage.RowFilter
import Infinity.Executor.DataExchange
import Infinity.Storage.CompactBits
import Infinity.Buffer.VersionFile
import Infinity.Compaction.RowIDRemap
import Infinity.Catalog.Keys
import Infinity.Search.BlockMaxAnd
import Infinity.Search.PhraseMatch
import Infinity.Compaction.SegmentSize
import Infinity.Executor.Limit
import Infinity.Executor.TableScan
