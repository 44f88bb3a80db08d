import Ocfs2Tools.Lib.Word
import Ocfs2Tools.Lib.Interval

/-!
# On-disk format: extent records, lists and blocks, and the inode

The structures follow `ocfs2_fs.h`. Counters and block numbers are `Nat`, with
wrap-around written out where the C code computes on `uint32_t` or `uint16_t`.
The host is little endian, so the swap functions of `extents.c` are the identity
and the union in `ocfs2_extent_rec` reads the low half of `e_int_clusters` as
`e_leaf_clusters`.
-/

namespace Ocfs2Tools

/-! ### The file system's geometry -/

/-- The part of `ocfs2_filesys` that the extent code reads; `refcountTree` is the feature bit that
    `ocfs2_refcount_tree` looks at. The bounds are those of `OCFS2_MIN_BLOCKSIZE` ..
    `OCFS2_MAX_BLOCKSIZE` and of the cluster size check in `ocfs2_open`. -/
structure Filesys where
  sBlocksizeBits : Nat
  sClustersizeBits : Nat
  fsBlocks : Nat
  refcountTree : Bool
  blocksize_ge : 9 ≤ sBlocksizeBits
  blocksize_le : sBlocksizeBits ≤ 12
  clustersize_ge : 12 ≤ sClustersizeBits
  clustersize_le : sClustersizeBits ≤ 20

/-- A volume of `n` blocks of 512 bytes, for examples. -/
def Filesys.smallBlocks (n : Nat) : Filesys :=
  ⟨9, 12, n, false, by decide, by decide, by decide, by decide⟩

/-- A volume of `n` blocks of a whole cluster. -/
def Filesys.largeBlocks (n : Nat) : Filesys :=
  ⟨12, 12, n, false, by decide, by decide, by decide, by decide⟩

variable (fs : Filesys)

def Filesys.fsBlocksize : Nat := 2 ^ fs.sBlocksizeBits
def Filesys.fsClustersize : Nat := 2 ^ fs.sClustersizeBits

/-- Blocks in a cluster, `ocfs2_clusters_to_blocks(fs, 1)`. -/
def Filesys.bpc : Nat := 2 ^ (fs.sClustersizeBits - fs.sBlocksizeBits)

theorem Filesys.bpc_pos : 0 < fs.bpc := Nat.two_pow_pos _

theorem Filesys.bpc_le : fs.bpc ≤ 2048 := by
  have h1 := fs.blocksize_ge
  have h2 := fs.clustersize_le
  exact Nat.pow_le_pow_right (by decide) (by omega : _ ≤ 11)

def superBlockBlkno : Nat := 2
def maxPathDepth : Nat := 5
def uint32Max : Nat := 4294967295

/-- `ocfs2_clusters_to_blocks`: the shift is on `uint64_t` and a cluster count is
    below `2^32`, so nothing is lost. -/
def clustersToBlocks (clusters : Nat) : Nat := clusters * fs.bpc

/-- `ocfs2_blocks_to_clusters`, which saturates at `UINT32_MAX`. -/
def blocksToClusters (blocks : Nat) : Nat :=
  if blocks / fs.bpc > uint32Max then uint32Max else blocks / fs.bpc

/-- `ocfs2_extent_recs_per_eb`: the records start 64 bytes into the block. -/
def extentRecsPerEb : Nat := (fs.fsBlocksize - 64) / 16

/-- `ocfs2_extent_recs_per_inode`: the records start 208 bytes into the block. -/
def extentRecsPerInode : Nat := (fs.fsBlocksize - 208) / 16

theorem Filesys.fsBlocksize_ge : 512 ≤ fs.fsBlocksize :=
  Nat.pow_le_pow_right (n := 2) (by decide) fs.blocksize_ge

theorem Filesys.fsClustersize_eq : fs.fsClustersize = fs.fsBlocksize * fs.bpc := by
  have h1 := fs.blocksize_le
  have h2 := fs.clustersize_ge
  rw [fsClustersize, fsBlocksize, bpc, ← Nat.pow_add]
  congr 1
  omega

theorem Filesys.fsBlocksize_le : fs.fsBlocksize ≤ 4096 :=
  Nat.pow_le_pow_right (by decide) fs.blocksize_le

theorem Filesys.fsClustersize_le : fs.fsClustersize ≤ 1048576 :=
  Nat.pow_le_pow_right (by decide) fs.clustersize_le

theorem extentRecsPerEb_ge : 28 ≤ extentRecsPerEb fs := by
  have := fs.fsBlocksize_ge
  unfold extentRecsPerEb
  omega

theorem extentRecsPerInode_lt : extentRecsPerInode fs < extentRecsPerEb fs := by
  have := fs.fsBlocksize_ge
  unfold extentRecsPerInode extentRecsPerEb
  omega

/-! ### Extent records -/

/-- `struct ocfs2_extent_rec`. The union of `e_int_clusters` with the leaf fields
    is kept as the three leaf fields; `eIntClusters` reads them as one word. -/
structure ExtentRec where
  eCpos : Nat
  eLeafClusters : Nat
  eReserved1 : Nat
  eFlags : Nat
  eBlkno : Nat
deriving DecidableEq, Repr

/-- The record `memset` leaves behind. -/
def ExtentRec.zero : ExtentRec := ⟨0, 0, 0, 0, 0⟩

instance : Inhabited ExtentRec := ⟨ExtentRec.zero⟩

def ExtentRec.eIntClusters (r : ExtentRec) : Nat :=
  r.eLeafClusters + 65536 * r.eReserved1 + 16777216 * r.eFlags

def ExtentRec.setIntClusters (r : ExtentRec) (c : Nat) : ExtentRec :=
  { r with
    eLeafClusters := c % 65536
    eReserved1 := c / 65536 % 256
    eFlags := c / 16777216 % 256 }

theorem ExtentRec.eIntClusters_setIntClusters (r : ExtentRec) {c : Nat}
    (hc : c < 4294967296) : (r.setIntClusters c).eIntClusters = c := by
  simp only [setIntClusters, eIntClusters]
  omega

@[simp] theorem ExtentRec.eCpos_setIntClusters (r : ExtentRec) (c : Nat) :
    (r.setIntClusters c).eCpos = r.eCpos := rfl

@[simp] theorem ExtentRec.eBlkno_setIntClusters (r : ExtentRec) (c : Nat) :
    (r.setIntClusters c).eBlkno = r.eBlkno := rfl

/-- `ocfs2_is_empty_extent`: it looks at `e_leaf_clusters` whatever the level. -/
def isEmptyExtent (r : ExtentRec) : Bool := r.eLeafClusters == 0

/-- `ocfs2_rec_clusters`. -/
def recClusters (treeDepth : Nat) (r : ExtentRec) : Nat :=
  if treeDepth = 0 then r.eLeafClusters else r.eIntClusters

/-- `ocfs2_set_rec_clusters`. -/
def setRecClusters (treeDepth : Nat) (r : ExtentRec) (clusters : Nat) : ExtentRec :=
  if treeDepth = 0 then { r with eLeafClusters := clusters % 65536 }
  else r.setIntClusters clusters

@[simp] theorem recClusters_zero (r : ExtentRec) : recClusters 0 r = r.eLeafClusters := rfl

@[simp] theorem recClusters_succ (d : Nat) (r : ExtentRec) :
    recClusters (d + 1) r = r.eIntClusters := rfl

/-- The fields fit their C types. -/
structure ExtentRec.Fits (r : ExtentRec) : Prop where
  cpos : r.eCpos < 4294967296
  leaf : r.eLeafClusters < 65536
  reserved : r.eReserved1 < 256
  flags : r.eFlags < 256

instance (r : ExtentRec) : Decidable r.Fits :=
  decidable_of_iff (r.eCpos < 4294967296 ∧ r.eLeafClusters < 65536 ∧ r.eReserved1 < 256 ∧
    r.eFlags < 256) ⟨fun h => ⟨h.1, h.2.1, h.2.2.1, h.2.2.2⟩, fun h => ⟨h.1, h.2, h.3, h.4⟩⟩

/-! ### Extent lists and blocks -/

/-- `struct ocfs2_extent_list`. The array holds `l_count` records, so `l_count` is
    its length; a store past the end would leave the buffer and is lost. -/
structure ExtentList where
  lTreeDepth : Nat
  lNextFreeRec : Nat
  lRecs : List ExtentRec
deriving DecidableEq, Repr

def ExtentList.lCount (el : ExtentList) : Nat := el.lRecs.length

/-- The records in use, `l_recs[0 .. l_next_free_rec)`. -/
def ExtentList.live (el : ExtentList) : List ExtentRec := el.lRecs.take el.lNextFreeRec

/-- `el->l_recs[i]`. -/
def ExtentList.recAt (el : ExtentList) (i : Nat) : ExtentRec := el.lRecs.getD i ExtentRec.zero

/-- `el->l_recs[i] = r`. -/
def ExtentList.setRec (el : ExtentList) (i : Nat) (r : ExtentRec) : ExtentList :=
  { el with lRecs := el.lRecs.set i r }

/-- `el->l_recs[el->l_next_free_rec++] = r`. -/
def ExtentList.push (el : ExtentList) (r : ExtentRec) : ExtentList :=
  { el.setRec el.lNextFreeRec r with lNextFreeRec := el.lNextFreeRec + 1 }

/-- `struct ocfs2_extent_block`, without the signature, generation and check
    fields, which the tree code never looks at. -/
structure ExtentBlock where
  hSuballocSlot : Nat
  hBlkno : Nat
  hNextLeafBlk : Nat
  hList : ExtentList
deriving DecidableEq, Repr

/-! ### The inode -/

/-- The fields of `struct ocfs2_dinode` that the extent and file code reads. The union `id2` is
    either `i_list` or the inline data, by `OCFS2_INLINE_DATA_FL` in `i_dyn_features`. -/
structure Dinode where
  iBlkno : Nat
  iMode : Nat
  iFlags : Nat
  iDynFeatures : Nat
  iSize : Nat
  iClusters : Nat
  iLastEbBlk : Nat
  iRefcountLoc : Nat
  iList : ExtentList
  idCount : Nat
  idData : List UInt8
deriving DecidableEq, Repr

/-- `word & flag` as a C condition. -/
def hasFlag (word flag : Nat) : Bool := word &&& flag != 0

def validFl : Nat := 0x00000001
def localAllocFl : Nat := 0x00000040
def superBlockFl : Nat := 0x00000020
def chainFl : Nat := 0x00000400
def dioOrphanedFl : Nat := 0x00002000
def inlineDataFl : Nat := 0x0001
def hasRefcountFl : Nat := 0x0010
def extUnwritten : Nat := 0x01
def extRefcounted : Nat := 0x02

/-- `word &= ~flag`, for a word of at most 32 bits. -/
def clearFlag (word flag : Nat) : Nat := word &&& (0xffffffff ^^^ flag)

theorem hasFlag_clearFlag {flag other : Nat} (h : (0xffffffff ^^^ flag) &&& other = other)
    (word : Nat) : hasFlag (clearFlag word flag) other = hasFlag word other := by
  rw [hasFlag, clearFlag, Nat.and_assoc, h, hasFlag]

end Ocfs2Tools
