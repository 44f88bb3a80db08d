import Ocfs2Tools.ReadWhole
import Ocfs2Tools.Truncate.Correct
import Ocfs2Tools.ExtentTree.Duplicate
import Ocfs2Tools.Fsck.Connected
import Ocfs2Tools.IoCache
import Ocfs2Tools.MetaBlock.Repair
import Ocfs2Tools.Journal.Replay
import Ocfs2Tools.ChainAlloc.Run
import Ocfs2Tools.ChainAlloc.AddGroup
import Ocfs2Tools.Extend.Allocation
import Ocfs2Tools.Refcount.Divide
import Ocfs2Tools.Fsck.DirentSound
import Ocfs2Tools.Fsck.DirentDups
import Ocfs2Tools.Fsck.GroupChain
import Ocfs2Tools.Fsck.Discontig
import Ocfs2Tools.Fsck.PathNames
import Ocfs2Tools.Dir.IndexSearch
import Ocfs2Tools.Dir.InsertRun
import Ocfs2Tools.Dir.FreeList
import Ocfs2Tools.Xattr.Index
import Ocfs2Tools.Dir.Convert
import Ocfs2Tools.InodeScan.Run
import Ocfs2Tools.Swap.RoundTrip
import Ocfs2Tools.Bitmap.Cluster
import Ocfs2Tools.Bitmap.Counts
import Ocfs2Tools.Bitmap.Ranges
import Ocfs2Tools.Bitmap.Alloc
import Ocfs2Tools.Fsck.RefcountList
import Ocfs2Tools.Fsck.ClusterBits
import Ocfs2Tools.Tunefs.Resize
import Ocfs2Tools.Mkfs.Alloc
import Ocfs2Tools.Fsck.SlotRecovery
import Ocfs2Tools.BlockCheck.Hunks
