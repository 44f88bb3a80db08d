import Ocfs2Tools.Lib.Swap
import Ocfs2Tools.Dir.Iterate

/-!
# Byte order

The blocks are little endian. On a big-endian host the `..._to_cpu` functions swap the
fields of a block in place after reading and the `..._from_cpu` functions swap them back
before writing. A block is a run of memory that starts at offset 0; the C code reads a field
as `beAt` does, and `bswap` reverses its bytes. Behind the block the memory goes on, and some
of the functions reach it.

`base` is the address of the block, on a host with 64-bit pointers.
-/

namespace Ocfs2Tools.Swap

abbrev Mem : Type := Nat → UInt8

/-- `ocfs2_swap_barrier` for the `len` bytes at `off`; the object ends at `limit`. -/
def swapBarrier (base limit off len : Nat) : Bool :=
  decide (base + limit < (base + off + len) % 2 ^ 64)

/-- Room for every turn of a loop over a `uint16_t` count. -/
def maxTurns : Nat := 65536

/-! ### Extent lists and extent blocks: `extents.c` -/

def primaryFields (el : Nat) : List Field := [⟨el, 2⟩, ⟨el + 2, 2⟩, ⟨el + 4, 2⟩]

/-- `ocfs2_swap_extent_list_primary`: `l_tree_depth`, `l_count`, `l_next_free_rec`. -/
def swapExtentListPrimary (el : Nat) (m : Mem) : Mem := swapFields m (primaryFields el)

/-- `e_cpos`, `e_int_clusters` or `e_leaf_clusters`, and `e_blkno` of the record at `r`. -/
def extentRecFields (treeDepth r : Nat) : List Field :=
  [⟨r, 4⟩, ⟨r + 4, if treeDepth ≠ 0 then 4 else 2⟩, ⟨r + 8, 8⟩]

/-- `ocfs2_swap_extent_list_secondary`. -/
def swapExtentListSecondary (base limit el : Nat) (m : Mem) : Mem :=
  swapArray (fun i => swapBarrier base limit (el + 16 + 16 * i) 16) (fun m => beAt m (el + 4) 2)
    (fun m i => extentRecFields (beAt m el 2) (el + 16 + 16 * i)) maxTurns 0 m

/-- `ocfs2_swap_extent_list_to_cpu`. -/
def swapExtentListToCpu (base limit el : Nat) (m : Mem) : Mem :=
  swapExtentListSecondary base limit el (swapExtentListPrimary el m)

/-- `ocfs2_swap_extent_list_from_cpu`. -/
def swapExtentListFromCpu (base limit el : Nat) (m : Mem) : Mem :=
  swapExtentListPrimary el (swapExtentListSecondary base limit el m)

/-- The fields of `ocfs2_swap_extent_block_header`. -/
def extentBlockHeader : List Field :=
  [⟨0x10, 2⟩, ⟨0x12, 2⟩, ⟨0x14, 4⟩, ⟨0x18, 8⟩, ⟨0x28, 8⟩, ⟨0x20, 8⟩]

variable (base size : Nat) (m : Mem)

/-- `ocfs2_swap_extent_block_to_cpu`. -/
def swapExtentBlockToCpu : Mem :=
  swapExtentListToCpu base size 0x30 (swapFields m extentBlockHeader)

/-- `ocfs2_swap_extent_block_from_cpu`: the header comes first here, too. -/
def swapExtentBlockFromCpu : Mem :=
  swapExtentListFromCpu base size 0x30 (swapFields m extentBlockHeader)

/-! ### Refcount blocks: `refcount.c` -/

/-- `ocfs2_swap_refcount_list_primary`: `rl_count` and `rl_used`. -/
def swapRefcountListPrimary (rl : Nat) (m : Mem) : Mem := swapFields m [⟨rl, 2⟩, ⟨rl + 2, 2⟩]

def refcountRecFields (r : Nat) : List Field := [⟨r, 8⟩, ⟨r + 8, 4⟩, ⟨r + 12, 4⟩]

/-- `ocfs2_swap_refcount_list_secondary`. -/
def swapRefcountListSecondary (base limit rl : Nat) (m : Mem) : Mem :=
  swapArray (fun i => swapBarrier base limit (rl + 16 + 16 * i) 16) (fun m => beAt m rl 2)
    (fun _ i => refcountRecFields (rl + 16 + 16 * i)) maxTurns 0 m

/-- `ocfs2_swap_refcount_list_to_cpu`. -/
def swapRefcountListToCpu (base limit rl : Nat) (m : Mem) : Mem :=
  swapRefcountListSecondary base limit rl (swapRefcountListPrimary rl m)

/-- `ocfs2_swap_refcount_list_from_cpu`. -/
def swapRefcountListFromCpu (base limit rl : Nat) (m : Mem) : Mem :=
  swapRefcountListPrimary rl (swapRefcountListSecondary base limit rl m)

/-- The fields of `ocfs2_swap_refcount_block_header`. -/
def refcountBlockHeader : List Field :=
  [⟨0x08, 2⟩, ⟨0x0a, 2⟩, ⟨0x0c, 4⟩, ⟨0x10, 8⟩, ⟨0x18, 8⟩, ⟨0x28, 8⟩, ⟨0x30, 4⟩, ⟨0x34, 4⟩,
    ⟨0x38, 4⟩, ⟨0x3c, 4⟩, ⟨0x48, 8⟩]

def refcountTreeFl : Nat := 0x00000002

/-- `rf_flags & OCFS2_REFCOUNT_TREE_FL`. -/
def isRefcountTree (m : Mem) : Bool := hasFlag (beAt m 0x34 4) refcountTreeFl

/-- The list of a refcount block, to the order of the CPU. -/
def refcountBodyToCpu : Mem :=
  if isRefcountTree m then swapExtentListToCpu base size 0x80 m
  else swapRefcountListToCpu base size 0x80 m

def refcountBodyFromCpu : Mem :=
  if isRefcountTree m then swapExtentListFromCpu base size 0x80 m
  else swapRefcountListFromCpu base size 0x80 m

/-- `ocfs2_swap_refcount_block_to_cpu`. -/
def swapRefcountBlockToCpu : Mem :=
  refcountBodyToCpu base size (swapFields m refcountBlockHeader)

/-- `ocfs2_swap_refcount_block_from_cpu`. -/
def swapRefcountBlockFromCpu : Mem :=
  swapFields (refcountBodyFromCpu base size m) refcountBlockHeader

/-! ### Directories: `dirblock.c` -/

/-- `inode` and `rec_len` of the entry at `p`. -/
def direntFields (p : Nat) : List Field := [⟨p, 8⟩, ⟨p + 8, 2⟩]

/-- A `rec_len` that no entry can have. -/
def badRecLen (recLen : Nat) : Bool := decide (recLen < 12) || recLen % 4 != 0

def direntStep (recLen : Nat) : Nat := if badRecLen recLen then 12 else recLen

def badDirent (recLen nameLen : Nat) : Bool :=
  badRecLen recLen || decide (direntStep recLen < nameLen + 12)

/-- `rec_len` of the entry at `p` in the order of the CPU: read behind the swap or before it. -/
def cpuRecLen (toCpu : Bool) (m : Mem) (p : Nat) : Nat :=
  beAt (if toCpu then swapFields m (direntFields p) else m) (p + 8) 2

/-- `ocfs2_swap_dir_entries_direction` from `p` on; `stop` is `end`. The flag says that an
    entry is corrupt. Every turn moves on by at least 12 bytes. -/
def swapDirEntriesDirection (toCpu : Bool) (stop : Nat) : Nat → Nat → Mem → Bool × Mem
  | 0, _, m => (false, m)
  | n + 1, p, m =>
    if p + 12 < stop then
      let r := swapDirEntriesDirection toCpu stop n (p + direntStep (cpuRecLen toCpu m p))
        (swapFields m (direntFields p))
      (badDirent (cpuRecLen toCpu m p) (m (p + 10)).toNat || r.1, r.2)
    else (false, m)

/-- `ocfs2_swap_dir_entries_to_cpu` on the `bytes` bytes at `buf`. -/
def swapDirEntriesToCpu (buf bytes : Nat) (m : Mem) : Bool × Mem :=
  swapDirEntriesDirection true (buf + bytes) bytes buf m

/-- `ocfs2_swap_dir_entries_from_cpu`. -/
def swapDirEntriesFromCpu (buf bytes : Nat) (m : Mem) : Bool × Mem :=
  swapDirEntriesDirection false (buf + bytes) bytes buf m

/-- The fields of `ocfs2_swap_dir_trailer`. -/
def dirTrailerFields (t : Nat) : List Field :=
  [⟨t, 8⟩, ⟨t + 8, 2⟩, ⟨t + 0x28, 8⟩, ⟨t + 0x30, 8⟩, ⟨t + 14, 2⟩, ⟨t + 0x20, 8⟩]

/-- The swapping of `ocfs2_read_dir_block`: behind corrupt entries the trailer is left alone. -/
def swapDirBlockToCpu (size : Nat) (trailer : Bool) (m : Mem) : Mem :=
  if trailer then
    let r := swapDirEntriesToCpu 0 (size - Dir.dirTrailerSize) m
    if r.1 then r.2 else swapFields r.2 (dirTrailerFields (size - Dir.dirTrailerSize))
  else (swapDirEntriesToCpu 0 size m).2

/-- The swapping of `ocfs2_write_dir_block`. -/
def swapDirBlockFromCpu (size : Nat) (trailer : Bool) (m : Mem) : Mem :=
  if trailer then
    let r := swapDirEntriesFromCpu 0 (size - Dir.dirTrailerSize) m
    if r.1 then r.2 else swapFields r.2 (dirTrailerFields (size - Dir.dirTrailerSize))
  else (swapDirEntriesFromCpu 0 size m).2

/-! ### Extended attributes: `xattr.c` -/

/-- `OCFS2_XATTR_SIZE` on `uint64_t`. -/
def xattrSize (size : Nat) : Nat := (size + 3) % 2 ^ 64 / 4 * 4

/-- `OCFS2_XATTR_ROOT_SIZE`. -/
def xattrRootSize : Nat := 48

/-- The fields of `ocfs2_swap_xattr_header` at `xh`. -/
def xattrHeaderFields (xh : Nat) : List Field := [⟨xh, 2⟩, ⟨xh + 2, 2⟩, ⟨xh + 4, 2⟩, ⟨xh + 6, 2⟩]

/-- `xh->xh_entries[i]`. -/
def entryAt (xh i : Nat) : Nat := xh + 16 + 16 * i

/-- The fields of `ocfs2_swap_xattr_entry`: hash, name offset and value size. -/
def xattrEntryFields (xe : Nat) : List Field := [⟨xe, 4⟩, ⟨xe + 4, 2⟩, ⟨xe + 8, 8⟩]

/-- `ocfs2_xattr_is_local`. -/
def xattrIsLocal (m : Mem) (xe : Nat) : Bool := hasFlag (m (xe + 7)).toNat 0x80

/-- Where the value of the entry at `xe` is: behind its name. -/
def valueAt (m : Mem) (xh xe : Nat) : Nat :=
  xh + beAt m (xe + 4) 2 + xattrSize (m (xe + 6)).toNat

/-- The fields of `ocfs2_swap_xattr_value_root`, and of `ocfs2_swap_xattr_tree_root`. -/
def xattrRootFields (xr : Nat) : List Field := [⟨xr, 4⟩, ⟨xr + 8, 8⟩]

/-- The value of the entry at `xe` would leave the object. -/
def valueBarrier (base limit : Nat) (m : Mem) (xh xe : Nat) : Bool :=
  swapBarrier base limit (valueAt m xh xe)
    (if xattrIsLocal m xe then xattrSize (beAt m (xe + 8) 8) else xattrRootSize)

/-- Swap the value root of an entry that is not local. The extent list is bounded as if the
    object started with the header. -/
def valueToCpu (base limit : Nat) (m : Mem) (xh xe : Nat) : Mem :=
  if xattrIsLocal m xe then m
  else swapExtentListToCpu base (xh + limit) (valueAt m xh xe + 16)
    (swapFields m (xattrRootFields (valueAt m xh xe)))

def valueFromCpu (base limit : Nat) (m : Mem) (xh xe : Nat) : Mem :=
  if xattrIsLocal m xe then m
  else swapFields (swapExtentListFromCpu base (xh + limit) (valueAt m xh xe + 16) m)
    (xattrRootFields (valueAt m xh xe))

/-- The loop of `ocfs2_swap_xattr_entries_to_cpu`: an entry is swapped before its value is
    looked at. -/
def entriesToCpu (base limit xh : Nat) : Nat → Nat → Mem → Mem
  | 0, _, m => m
  | n + 1, i, m =>
    if i < beAt m xh 2 then
      if swapBarrier base limit (entryAt xh i) 16 then m
      else
        let m := swapFields m (xattrEntryFields (entryAt xh i))
        if valueBarrier base limit m xh (entryAt xh i) then m
        else entriesToCpu base limit xh n (i + 1) (valueToCpu base limit m xh (entryAt xh i))
    else m

/-- The loop of `ocfs2_swap_xattr_entries_from_cpu`: an entry is swapped after its value. -/
def entriesFromCpu (base limit xh : Nat) : Nat → Nat → Mem → Mem
  | 0, _, m => m
  | n + 1, i, m =>
    if i < beAt m xh 2 then
      if swapBarrier base limit (entryAt xh i) 16 then m
      else if valueBarrier base limit m xh (entryAt xh i) then m
      else entriesFromCpu base limit xh n (i + 1)
        (swapFields (valueFromCpu base limit m xh (entryAt xh i)) (xattrEntryFields (entryAt xh i)))
    else m

/-- `__ocfs2_swap_xattrs_to_cpu`. -/
def swapXattrsToCpu (base limit xh : Nat) (m : Mem) : Mem :=
  entriesToCpu base limit xh maxTurns 0 (swapFields m (xattrHeaderFields xh))

/-- `__ocfs2_swap_xattrs_from_cpu`. -/
def swapXattrsFromCpu (base limit xh : Nat) (m : Mem) : Mem :=
  swapFields (entriesFromCpu base limit xh maxTurns 0 m) (xattrHeaderFields xh)

/-- The fields of `ocfs2_swap_xattr_block_header`. -/
def xattrBlockHeader : List Field :=
  [⟨0x08, 2⟩, ⟨0x0a, 2⟩, ⟨0x0c, 4⟩, ⟨0x10, 8⟩, ⟨0x20, 2⟩, ⟨0x28, 8⟩]

/-- `xb_flags & OCFS2_XATTR_INDEXED`. -/
def isIndexed (m : Mem) : Bool := hasFlag (beAt m 0x20 2) 0x1

/-- What the flags of an xattr block say is in it, to the order of the CPU. -/
def xattrBodyToCpu : Mem :=
  if isIndexed m then swapExtentListToCpu base size 0x40 (swapFields m (xattrRootFields 0x30))
  else swapXattrsToCpu base size 0x30 m

def xattrBodyFromCpu : Mem :=
  if isIndexed m then swapFields (swapExtentListFromCpu base size 0x40 m) (xattrRootFields 0x30)
  else swapXattrsFromCpu base size 0x30 m

/-- `ocfs2_swap_xattr_block_to_cpu`. -/
def swapXattrBlockToCpu : Mem :=
  xattrBodyToCpu base size (swapFields m xattrBlockHeader)

/-- `ocfs2_swap_xattr_block_from_cpu`. -/
def swapXattrBlockFromCpu : Mem :=
  swapFields (xattrBodyFromCpu base size m) xattrBlockHeader

/-- `OCFS2_XATTR_BUCKET_SIZE`. -/
def xattrBucketSize : Nat := 4096

/-! ### Inodes: `inode.c` -/

def bitmapFl : Nat := 0x00000080
def journalFl : Nat := 0x00000100
def deallocFl : Nat := 0x00000800
def inlineXattrFl : Nat := 0x0004

/-- The fields of an inode that the functions decide on, in the order of the CPU. -/
structure InodeInfo where
  mode : Nat
  flags : Nat
  dynFeatures : Nat
  size : Nat
  clusters : Nat
  xattrInlineSize : Nat
deriving DecidableEq, Repr

def inodeInfo (m : Mem) : InodeInfo :=
  ⟨beAt m 0x28 2, beAt m 0x2c 4, beAt m 0x76 2, beAt m 0x20 8, beAt m 0x14 4, beAt m 0x12 2⟩

/-- The fields of `ocfs2_swap_inode_first`. -/
def inodeFirstFields : List Field :=
  [⟨0x08, 4⟩, ⟨0x0c, 2⟩, ⟨0x0e, 2⟩, ⟨0x12, 2⟩, ⟨0x14, 4⟩, ⟨0x18, 4⟩, ⟨0x1c, 4⟩, ⟨0x20, 8⟩,
    ⟨0x28, 2⟩, ⟨0x2a, 2⟩, ⟨0x2c, 4⟩, ⟨0x30, 8⟩, ⟨0x38, 8⟩, ⟨0x40, 8⟩, ⟨0x48, 8⟩, ⟨0x50, 8⟩,
    ⟨0x58, 8⟩, ⟨0x60, 4⟩, ⟨0x64, 4⟩, ⟨0x68, 4⟩, ⟨0x6c, 4⟩, ⟨0x70, 4⟩, ⟨0x74, 2⟩, ⟨0x76, 2⟩,
    ⟨0x78, 8⟩, ⟨0x90, 8⟩, ⟨0x98, 8⟩]

/-- `id2`, where what the inode is about starts. -/
def id2 : Nat := 0xc0

/-- The fields of the superblock that are swapped. -/
def superFields : List Field :=
  [⟨id2, 2⟩, ⟨id2 + 0x02, 2⟩, ⟨id2 + 0x04, 2⟩, ⟨id2 + 0x06, 2⟩, ⟨id2 + 0x08, 2⟩, ⟨id2 + 0x0a, 2⟩,
    ⟨id2 + 0x0c, 4⟩, ⟨id2 + 0x10, 8⟩, ⟨id2 + 0x18, 4⟩, ⟨id2 + 0x1c, 4⟩, ⟨id2 + 0x24, 4⟩,
    ⟨id2 + 0x20, 4⟩, ⟨id2 + 0x28, 8⟩, ⟨id2 + 0x30, 8⟩, ⟨id2 + 0x38, 4⟩, ⟨id2 + 0x3c, 4⟩,
    ⟨id2 + 0x40, 2⟩, ⟨id2 + 0x42, 2⟩, ⟨id2 + 0x44, 4⟩, ⟨id2 + 0x48, 8⟩, ⟨id2 + 0xb8, 2⟩,
    ⟨id2 + 0xbc, 4⟩, ⟨id2 + 0xc0, 4⟩, ⟨id2 + 0xc4, 4⟩]

/-- `S_ISCHR` or `S_ISBLK`. -/
def isDevMode (mode : Nat) : Bool := mode / 4096 % 16 == 2 || mode / 4096 % 16 == 6

/-- `S_ISLNK`. -/
def isLnkMode (mode : Nat) : Bool := mode / 4096 % 16 == 10

def id1Fields (d : InodeInfo) : List Field :=
  if isDevMode d.mode then [⟨0xb8, 8⟩]
  else if hasFlag d.flags bitmapFl then [⟨0xb8, 4⟩, ⟨0xbc, 4⟩]
  else if hasFlag d.flags journalFl then [⟨0xb8, 4⟩, ⟨0xbc, 4⟩]
  else []

/-- The part of `id2` that is in use, up to its records; or `i_dx_root`. -/
def id2Fields (d : InodeInfo) : List Field :=
  if hasFlag d.flags superBlockFl then superFields
  else if hasFlag d.flags localAllocFl then [⟨id2, 4⟩, ⟨id2 + 4, 2⟩]
  else if hasFlag d.flags chainFl then [⟨id2, 2⟩, ⟨id2 + 2, 2⟩, ⟨id2 + 4, 2⟩, ⟨id2 + 6, 2⟩]
  else if hasFlag d.flags deallocFl then [⟨id2, 2⟩, ⟨id2 + 2, 2⟩]
  else if hasFlag d.dynFeatures inlineDataFl then [⟨id2, 2⟩]
  else if hasFlag d.dynFeatures Dir.indexedDirFl then [⟨0x88, 8⟩]
  else []

/-- `ocfs2_swap_inode_second`. -/
def swapInodeSecond (m : Mem) : Mem :=
  swapFields m (id1Fields (inodeInfo m) ++ id2Fields (inodeInfo m))

def chainRecFields (r : Nat) : List Field := [⟨r, 4⟩, ⟨r + 4, 4⟩, ⟨r + 8, 8⟩]

def truncateRecFields (r : Nat) : List Field := [⟨r, 4⟩, ⟨r + 4, 4⟩]

/-- `ocfs2_swap_inode_third`: the records of a chain list or a truncate log. -/
def swapInodeThird : Mem :=
  if hasFlag (inodeInfo m).flags chainFl then
    swapArray (fun i => swapBarrier base size (id2 + 16 + 16 * i) 16) (fun m => beAt m (id2 + 6) 2)
      (fun _ i => chainRecFields (id2 + 16 + 16 * i)) maxTurns 0 m
  else if hasFlag (inodeInfo m).flags deallocFl then
    swapArray (fun i => swapBarrier base size (id2 + 8 + 8 * i) 8) (fun m => beAt m id2 2)
      (fun _ i => truncateRecFields (id2 + 8 + 8 * i)) maxTurns 0 m
  else m

/-- `has_extents`. -/
def hasExtents (d : InodeInfo) : Bool :=
  if hasFlag d.flags (superBlockFl ||| localAllocFl ||| chainFl ||| deallocFl) then false
  else if isLnkMode d.mode && d.size != 0 && d.clusters == 0 then false
  else !hasFlag d.dynFeatures inlineDataFl

/-- `ocfs2_max_inline_data_with_xattr`, or 0 if it is negative. -/
def maxInline (size : Nat) (d : InodeInfo) : Nat :=
  size - Dir.idDataOffset - (if hasFlag d.dynFeatures inlineXattrFl then d.xattrInlineSize else 0)

/-- The bytes of an inline directory that `ocfs2_swap_inline_dir` looks at. -/
def inlineBytes (size : Nat) (m : Mem) : Nat := min (beAt m id2 2) (maxInline size (inodeInfo m))

def isInlineDir (d : InodeInfo) : Bool :=
  hasFlag d.dynFeatures inlineDataFl && Dir.isDirMode d.mode

/-- `ocfs2_swap_inline_dir`, where it is called: an empty directory is left alone. -/
def swapInlineDir (toCpu : Bool) (size : Nat) (m : Mem) : Mem :=
  if isInlineDir (inodeInfo m) && (inodeInfo m).size != 0 then
    (swapDirEntriesDirection toCpu (Dir.idDataOffset + inlineBytes size m) (inlineBytes size m)
      Dir.idDataOffset m).2
  else m

def inodeExtentsToCpu : Mem :=
  if hasExtents (inodeInfo m) then swapExtentListToCpu base size id2 m else m

def inodeExtentsFromCpu : Mem :=
  if hasExtents (inodeInfo m) then swapExtentListFromCpu base size id2 m else m

def inlineXattrs (size : Nat) (d : InodeInfo) : Nat := size - d.xattrInlineSize

def inodeXattrsToCpu : Mem :=
  if hasFlag (inodeInfo m).dynFeatures inlineXattrFl then
    swapXattrsToCpu base size (inlineXattrs size (inodeInfo m)) m
  else m

def inodeXattrsFromCpu : Mem :=
  if hasFlag (inodeInfo m).dynFeatures inlineXattrFl then
    swapXattrsFromCpu base size (inlineXattrs size (inodeInfo m)) m
  else m

/-- Everything of `ocfs2_swap_inode_to_cpu` but the inline xattrs. -/
def inodeBodyToCpu : Mem :=
  inodeExtentsToCpu base size (swapInlineDir true size
    (swapInodeThird base size (swapInodeSecond (swapFields m inodeFirstFields))))

def inodeBodyFromCpu : Mem :=
  swapFields (swapInodeSecond (swapInodeThird base size
    (swapInlineDir false size (inodeExtentsFromCpu base size m)))) inodeFirstFields

/-- `ocfs2_swap_inode_to_cpu`. -/
def swapInodeToCpu : Mem :=
  inodeXattrsToCpu base size (inodeBodyToCpu base size m)

/-- `ocfs2_swap_inode_from_cpu`. -/
def swapInodeFromCpu : Mem :=
  inodeBodyFromCpu base size (inodeXattrsFromCpu base size m)

end Ocfs2Tools.Swap
