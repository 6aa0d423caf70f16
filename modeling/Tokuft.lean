import Tokuft.Txn.ReadCommittedAlways
import Tokuft.Mvcc.PackedReads
import Tokuft.Search.ScanExact
import Tokuft.Rollback.WorldExact
import Tokuft.Locktree.EscalateExact
import Tokuft.Locktree.TreeExact
import Tokuft.Locktree.LockRequestExact
import Tokuft.Txn.LiveLists
import Tokuft.Node.PivotKeysExact
import Tokuft.Node.LeafRebalanceExact
import Tokuft.Node.MergeExact
import Tokuft.Locktree.RangeBufferExact
import Tokuft.Blocks.Freelist
import Tokuft.Blocks.Fragmentation
import Tokuft.Logger.FlushExact
import Tokuft.Logger.X1764Chunks
import Tokuft.Logger.TornTail
import Tokuft.Tree.RowCheckpoint
import Tokuft.Tree.StatExact
import Tokuft.Util.FrwlockExact
import Tokuft.Search.KeysrangeSound
import Tokuft.Tree.UpgradeMsnExact
import Tokuft.Cachetable.CacheSizes
import Tokuft.Loader.MergeFilesExact
import Tokuft.Blocks.LayoutOrder
import Tokuft.Tree.MessageRange
import Tokuft.Indexer.HiddenFailures
import Tokuft.Indexer.PinsExact
import Tokuft.Loader.SortRowsExact
