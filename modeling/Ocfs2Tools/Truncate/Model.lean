import Ocfs2Tools.ExtentTree.Iterate
import Ocfs2Tools.FileRead

/-!
# Cutting a file: the functions of `truncate.c`

`ocfs2_truncate` walks the extent tree with `truncate_iterate`, which frees what lies
behind the new end, zeroes the rest of the last cluster, and writes the inode. The model
is of `ocfs2_truncate` itself, so the caller's `free_clusters` is `NULL`.

The cluster bitmap and the refcount trees are not part of the device: giving clusters
back only leaves an entry in `released`. `ocfs2_refcount_cow` and `ocfs2_extend_file` are
other files' business and are parameters.
-/

namespace Ocfs2Tools

open Prog

/-! ### Sizes -/

variable (fs : Filesys)

/-- `ocfs2_blocks_in_bytes`. -/
def blocksInBytes (bytes : Nat) : Nat :=
  if addW 64 bytes (fs.fsBlocksize - 1) < bytes then 18446744073709551615
  else addW 64 bytes (fs.fsBlocksize - 1) / fs.fsBlocksize

/-- `ocfs2_clusters_in_blocks`. -/
def clustersInBlocks (blocks : Nat) : Nat :=
  let sum := addW 64 blocks (fs.bpc - 1)
  let ret := (if sum < blocks then 18446744073709551615 else sum) / fs.bpc
  if ret > uint32Max then uint32Max else ret

/-- `ctxt.new_size_in_clusters`. -/
def newSizeInClusters (newISize : Nat) : Nat :=
  clustersInBlocks fs (blocksInBytes fs newISize)

/-! ### The callback -/

/-- `ocfs2_free_clusters`. -/
def freeClusters (len start : Nat) : M Unit :=
  Prog.modify fun s => { s with released := .clusters start len :: s.released }

/-- `ocfs2_decrease_refcount`, from cluster `cpos` of the device on. -/
def decreaseRefcount (cpos len : Nat) : M Unit :=
  Prog.modify fun s => { s with released := .refcount cpos len :: s.released }

/-- `ocfs2_truncate_clusters`. -/
def truncateClusters (r : ExtentRec) (ino len start : Nat) : M Unit :=
  if fs.refcountTree = false ∨ hasFlag r.eFlags extRefcounted = false then freeClusters len start
  else do
    check (decide (ino ≠ 0))
    decreaseRefcount (blocksToClusters fs start) len

/-- The end of `truncate_iterate` on a leaf record, which is now `r`: free `len` clusters
    and count them off. With `cleanup` the record is cleared, whatever happens. -/
def truncateFree (ino : Nat) (r : ExtentRec) (cleanup : Bool)
    (start len newIClusters : Nat) : M (IterFlags × ExtentRec × Nat) := do
  let out := if cleanup then ExtentRec.zero else r
  if start = 0 then pure (IterFlags.extentChanged, out, newIClusters)
  else
    match ← attempt (truncateClusters fs r ino len start) with
    | .error _ => pure (IterFlags.extentError, out, newIClusters)
    | .ok _ => pure (IterFlags.extentChanged, out, subW 32 newIClusters len)

def truncateBlock (r : ExtentRec) (newIClusters : Nat) :
    M (IterFlags × ExtentRec × Nat) := do
  match ← attempt (deleteExtentBlock fs r.eBlkno) with
  | .error _ => pure (IterFlags.extentError, r, newIClusters)
  | .ok _ => pure (IterFlags.extentChanged, ExtentRec.zero, newIClusters)

/-- `truncate_iterate`; the caller's data that changes is `new_i_clusters`. -/
def truncateIterate (ino newSize : Nat) : ExtentFunc Nat :=
  fun r treeDepth newIClusters =>
    let recEnd := addW 32 r.eCpos (recClusters treeDepth r)
    if recEnd ≤ newSize then pure (IterFlags.nothing, r, newIClusters)
    else if newSize ≤ r.eCpos then
      -- the record is entirely outside the new size
      if treeDepth = 0 then
        truncateFree fs ino r true r.eBlkno (recClusters treeDepth r) newIClusters
      else truncateBlock fs r newIClusters
    else
      let len := subW 32 recEnd newSize
      let r' := setRecClusters treeDepth r (subW 32 newSize r.eCpos)
      if treeDepth = 0 then
        truncateFree fs ino r' false (r.eBlkno + clustersToBlocks fs (recClusters treeDepth r'))
          len newIClusters
      else do
        -- the records below may all be gone
        match ← attempt (readExtentBlock fs r.eBlkno) with
        | .error _ => pure (IterFlags.extentError, r', newIClusters)
        | .ok eb =>
          if eb.hList.lNextFreeRec = 0 then truncateBlock fs r' newIClusters
          else pure (IterFlags.extentChanged, r', newIClusters)

/-! ### The tail of the last cluster -/

def Device.setBlocks (dev : Device) (pBlkno count : Nat) (bytes : List UInt8) :
    Device :=
  { dev with
    blocks := fun b =>
      if pBlkno ≤ b ∧ b < pBlkno + count then
        (bytes.drop ((b - pBlkno) * fs.fsBlocksize)).take fs.fsBlocksize
      else dev.blocks b }

/-- Empty the cluster that holds block `pBlkno` from the new end on. -/
def emptyTail (pBlkno newSize : Nat) : M Unit := do
  let count := fs.bpc - pBlkno % fs.bpc
  let buf ← readBlocks pBlkno count
  let startOff := newSize % fs.fsBlocksize
  writeBlock fun dev => dev.setBlocks fs pBlkno count
    (buf.take startOff ++ List.replicate (count * fs.fsBlocksize - startOff) 0)

variable (refcountCow : Dinode → Nat → M Dinode)

/-- `ocfs2_zero_tail_for_truncate`. `refcountCow` is `ocfs2_refcount_cow` on the one
    cluster it is given; it returns the inode buffer it leaves. -/
def zeroTailForTruncate (di : Dinode)
    (newSize : Nat) : M Dinode :=
  if newSize = 0 then pure di
  else do
    let startBlk := newSize / fs.fsBlocksize
    let b ← extentMapGetBlocks fs di startBlk
    if b.pBlkno = 0 then pure di
    else if hasFlag b.extentFlags extRefcounted then do
      let di ← refcountCow di (blocksToClusters fs startBlk)
      let b ← extentMapGetBlocks fs di startBlk
      check (!hasFlag b.extentFlags extRefcounted && b.pBlkno != 0)
      emptyTail fs b.pBlkno newSize
      pure di
    else do
      emptyTail fs b.pBlkno newSize
      pure di

/-- `ocfs2_zero_tail_and_truncate_full`: the inode buffer and `*new_clusters`. -/
def zeroTailAndTruncate (di : Dinode)
    (newISize : Nat) : M (Dinode × Nat) := do
  let (di, newClusters) ← extentIterateInode fs ⟨true, false⟩
    (truncateIterate fs di.iBlkno (newSizeInClusters fs newISize)) di di.iClusters
  let di ← zeroTailForTruncate fs refcountCow di newISize
  pure (di, newClusters)

/-! ### The whole function -/

/-- `S_ISLNK(i_mode)`. -/
def isLnk (di : Dinode) : Bool := di.iMode &&& 0o170000 == 0o120000

/-- `ocfs2_read_inode` on the inode of the device. -/
def readInode : M Dinode := fun s =>
  if outOfRange fs s.dev.inode.iBlkno then some (.error .badBlkno, s)
  else some (.ok s.dev.inode, s)

/-- `ocfs2_truncate_inline`. The text of a fast symlink is not part of the inode here. -/
def truncateInline (newISize : Nat) : M Unit := do
  let di ← readInode fs
  if di.iSize < newISize then fail .einval
  else if hasFlag di.iDynFeatures inlineDataFl then
    writeInode fs { di with
      idData := di.idData.take newISize ++ List.replicate (di.iSize - newISize) 0 ++
        di.idData.drop di.iSize
      iSize := newISize }
  else if isLnk di ∧ di.iClusters = 0 then writeInode fs { di with iSize := newISize }
  else fail .einval

/-- `ocfs2_detach_refcount_tree`, as far as the inode goes. -/
def detachRefcountTree : M Unit := do
  let di ← readInode fs
  writeInode fs { di with
    iRefcountLoc := 0
    iDynFeatures := clearFlag di.iDynFeatures hasRefcountFl }

/-- The end of `ocfs2_truncate_full`: write the inode, which maps `newClusters` now. -/
def writeTruncated (di : Dinode) (newClusters newISize : Nat) : M Unit := do
  let el := if newClusters = 0 then { di.iList with lTreeDepth := 0 } else di.iList
  writeInode fs { di with iClusters := newClusters, iList := el, iSize := newISize }
  if newISize = 0 ∧ di.iRefcountLoc ≠ 0 ∧ hasFlag di.iDynFeatures hasRefcountFl then
    detachRefcountTree fs
  else pure ()

/-- `ocfs2_truncate_full` from the label `truncate` on. -/
def truncateTo (di : Dinode)
    (newISize : Nat) : M Unit := do
  if (isLnk di ∧ di.iClusters = 0) ∨ hasFlag di.iDynFeatures inlineDataFl then
    truncateInline fs newISize
    if newISize = 0 ∧ di.iRefcountLoc ≠ 0 ∧ hasFlag di.iDynFeatures hasRefcountFl then
      detachRefcountTree fs
    else pure ()
  else
    let (di, newClusters) ← zeroTailAndTruncate fs refcountCow di newISize
    writeTruncated fs di newClusters newISize

/-- `ocfs2_truncate` on the inode of the device. -/
def truncate (extendFile : Nat → M Unit)
    (newISize : Nat) : M Unit := do
  let di ← readInode fs
  if hasFlag di.iFlags dioOrphanedFl then
    -- direct I/O crashed: cut at the old size, blocks behind it may be allocated
    truncateTo fs refcountCow { di with iFlags := clearFlag di.iFlags dioOrphanedFl } di.iSize
  else if di.iSize = newISize then pure ()
  else if di.iSize < newISize then extendFile newISize
  else truncateTo fs refcountCow di newISize

end Ocfs2Tools
