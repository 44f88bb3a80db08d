import Ocfs2Tools.Bitops
import Ocfs2Tools.Format
import Ocfs2Tools.Lib.Prog

/-!
# Chain allocators: `chainalloc.c` over `bitmap.c`

A chain allocator that is loaded keeps a bitmap of regions. A region has its own copy of
some bits of a group's bitmap, and the regions of a discontiguous group share one group
descriptor. Every bit that changes is counted in the descriptor, in the record of its
chain and in the inode, and the copies go back to the descriptors when the allocator is
written.

Regions and groups are numbered. The tree of the regions is built when the allocator is
loaded and does not change after that, so it holds the numbers. An access outside of the
buffer of a region is undefined in C, here the program does not go on.
-/

namespace Ocfs2Tools.ChainAlloc

open Function Prog Bitops

/-- `struct ocfs2_group_desc`; `bgList` are the used records of the extent list of a
    discontiguous group, and it is empty otherwise. -/
structure GroupDesc where
  bgBits : Nat
  bgFreeBitsCount : Nat
  bgChain : Nat
  bgBlkno : Nat
  bgBitmap : List UInt8
  bgList : List ExtentRec

/-- The counts of the allocator's inode: those of its chain records, and `i_used`. -/
structure ChainInode where
  cFree : Nat → Nat
  cTotal : Nat → Nat
  iUsed : Nat

/-- `struct ocfs2_bitmap_region` with its private part; `ag` is the number of the group. -/
structure Region where
  brStartBit : Nat
  brValidBits : Nat
  bitOffset : Nat
  ag : Nat
deriving DecidableEq

def Region.brBitmapStart (r : Region) : Nat := r.bitOffset % 8
def Region.brTotalBits (r : Region) : Nat := r.brValidBits + r.brBitmapStart
def Region.brBytes (r : Region) : Nat := (r.brTotalBits + 7) / 8

inductive RTree where
  | leaf
  | node (left : RTree) (region : Nat) (right : RTree)

/-- The regions in the order of `rb_first` and `rb_next`. -/
def RTree.toList : RTree → List Nat
  | .leaf => []
  | .node left i right => left.toList ++ i :: right.toList

/-- What is fixed once the allocator is loaded: `b_total_bits`, `s_first_cluster_group`, the
    regions and their tree. -/
structure Env where
  bTotalBits : Nat
  sFirstClusterGroup : Nat
  region : Nat → Region
  tree : RTree

inductive ChainError where
  | invalidBit
  | invalidArgument
  | bitNotFound
  | internalFailure
  | freeingUnallocatedRegion
  | io
deriving DecidableEq, Repr

/-- The buffers of the regions with `br_set_bits` and `cr_dirty`, the group descriptors and
    the inode in memory with `cb_dirty`, and what the device holds of both. -/
structure St where
  brBitmap : Nat → List UInt8
  brSetBits : Nat → Int
  crDirty : Nat → Bool
  crAg : Nat → GroupDesc
  inode : ChainInode
  cbDirty : Bool
  disk : Nat → GroupDesc
  diskInode : ChainInode

abbrev C (α : Type) : Type := Prog St ChainError α

/-! ### Loading -/

/-- `chainalloc_scale_start_bit`. -/
def scaleStartBit (fs : Filesys) (blkno bpc : Nat) : Nat :=
  let bitsize := fs.fsClustersize / bpc
  if bitsize = fs.fsBlocksize then blkno
  else if bitsize < fs.fsBlocksize then blkno * (fs.fsBlocksize / bitsize)
  else blkno / (bitsize / fs.fsBlocksize)

/-- `chainalloc_get_next_region`: the start and the length of the region at an offset of the
    group. -/
def getNextRegion (fs : Filesys) (firstGroup bpc : Nat) (gd : GroupDesc) (bitOffset : Nat) :
    Option (Nat × Nat) :=
  if gd.bgList.isEmpty then
    if bitOffset ≠ 0 then none
    else some (scaleStartBit fs (if gd.bgBlkno = firstGroup then 0 else gd.bgBlkno) bpc, gd.bgBits)
  else
    match gd.bgList.find? fun rec => rec.eCpos == bitOffset / bpc with
    | none => none
    | some rec => some (scaleStartBit fs rec.eBlkno bpc, rec.eLeafClusters * bpc)

/-- The loop of `create_chainalloc_region`, with the number of bits that are left. -/
def createRegions (fs : Filesys) (firstGroup bpc : Nat) (gd : GroupDesc) (ag : Nat) :
    Nat → Int → Nat → Option (List Region)
  | 0, _, _ => none
  | fuel + 1, totalBits, bitOffset =>
    if totalBits = 0 then some []
    else
      match getNextRegion fs firstGroup bpc gd bitOffset with
      | none => none
      | some (startBit, regionBits) =>
        (createRegions fs firstGroup bpc gd ag fuel (totalBits - regionBits)
          (bitOffset + regionBits)).map (⟨startBit, regionBits, bitOffset, ag⟩ :: ·)

def createChainallocRegion (fs : Filesys) (firstGroup bpc : Nat) (gd : GroupDesc) (ag : Nat) :
    Option (List Region) :=
  createRegions fs firstGroup bpc gd ag (gd.bgBits + 1) gd.bgBits 0

/-- The regions of the first `n` groups, as `ocfs2_chain_iterate` meets them. -/
def loadRegions (fs : Filesys) (firstGroup bpc : Nat) (gd : Nat → GroupDesc) :
    Nat → Option (List Region)
  | 0 => some []
  | n + 1 => do
    let rs ← loadRegions fs firstGroup bpc gd n
    let group ← createChainallocRegion fs firstGroup bpc (gd n) n
    some (rs ++ group)

def loadBitmap (r : Region) (gd : GroupDesc) : List UInt8 :=
  (gd.bgBitmap.drop (r.bitOffset / 8)).take r.brBytes

/-! ### Single bits -/

/-- `++` and `--` of a counter of `w` bits. -/
def bump (w x : Nat) (up : Bool) : Nat := if up then (x + 1) % 2 ^ w else (x + 2 ^ w - 1) % 2 ^ w

variable (env : Env)

/-- `chainalloc_bit_change_notify`. -/
def bitChangeNotify (i : Nat) (newVal : Bool) (s : St) : St :=
  let ag := s.crAg (env.region i).ag
  let c := ag.bgChain
  { s with
    crAg := update s.crAg (env.region i).ag
      { ag with bgFreeBitsCount := bump 16 ag.bgFreeBitsCount (!newVal) }
    inode := { s.inode with
      cFree := update s.inode.cFree c (bump 32 (s.inode.cFree c) (!newVal))
      iUsed := bump 32 s.inode.iUsed newVal }
    crDirty := update s.crDirty i true
    cbDirty := true }

def bitIndex (r : Region) (bitno : Nat) : Int := (bitno : Int) - r.brStartBit + r.brBitmapStart

/-- `set_generic_shared`, or `clear_generic_shared` for the value `false`. -/
def changeGenericShared (newVal : Bool) (i bitno : Nat) : C Bool := fun s =>
  let nr := bitIndex (env.region i) bitno
  let bm := s.brBitmap i
  if 0 ≤ nr ∧ nr < 8 * bm.length then
    let old := testBit nr.toNat bm
    let t := { s with
      brBitmap := update s.brBitmap i
        (if newVal then setBit nr.toNat bm else clearBit nr.toNat bm) }
    if old = newVal then some (.ok old, t)
    else some (.ok old, bitChangeNotify env i newVal { t with
      brSetBits := update s.brSetBits i (if newVal then s.brSetBits i + 1 else s.brSetBits i - 1) })
  else none

def setGenericShared (i bitno : Nat) : C Bool := changeGenericShared env true i bitno

def clearGenericShared (i bitno : Nat) : C Bool := changeGenericShared env false i bitno

/-- `ocfs2_bitmap_lookup`: a region that intersects a range of bits, or else the next one
    behind the range (`last_left`). -/
def lookup (env : Env) (bitno totalBits : Nat) : RTree → Option Nat → Option Nat × Option Nat
  | .leaf, lastLeft => (none, lastLeft)
  | .node left i right, lastLeft =>
    if (bitno + totalBits) % 2 ^ 64 ≤ (env.region i).brStartBit then
      lookup env bitno totalBits left (some i)
    else if (env.region i).brStartBit + (env.region i).brValidBits ≤ bitno then
      lookup env bitno totalBits right lastLeft
    else (some i, none)

/-- `ocfs2_bitmap_set` and `ocfs2_bitmap_clear` with their generic operations. -/
def bitmapChange (newVal : Bool) (bitno : Nat) : C Bool :=
  if env.bTotalBits ≤ bitno then fail .invalidBit
  else
    match (lookup env bitno 1 env.tree none).1 with
    | none => fail .invalidBit
    | some i => changeGenericShared env newVal i bitno

def bitmapSet (bitno : Nat) : C Bool := bitmapChange env true bitno

def bitmapClear (bitno : Nat) : C Bool := bitmapChange env false bitno

/-- The first region of the list that has a clear bit from `start` on. -/
def findClearIn (env : Env) (start : Nat) (s : St) : List Nat → Option Nat
  | [] => none
  | i :: rest =>
    let r := env.region i
    let offset := if r.brStartBit < start then start - r.brStartBit else 0
    let ret := findNextBitClear (s.brBitmap i) r.brTotalBits (offset + r.brBitmapStart)
    if ret ≠ r.brTotalBits then some (r.brStartBit + ret - r.brBitmapStart)
    else findClearIn env start s rest

/-- `ocfs2_bitmap_find_next_clear`. -/
def findNextClear (start : Nat) : C Nat := do
  if env.bTotalBits ≤ start then fail .invalidBit
  else do
    let s ← Prog.get
    let found := lookup env start 1 env.tree none
    let nodes := match found.1.or found.2 with
      | none => []
      | some i => env.tree.toList.dropWhile (· != i)
    match findClearIn env start s nodes with
    | none => fail .bitNotFound
    | some bitno => pure bitno

/-- `chainalloc_find_gd` over the regions: the group descriptor and the bit in it. -/
def findGd (env : Env) (s : St) (bitno : Nat) : List Nat → Option (Nat × Nat)
  | [] => none
  | i :: rest =>
    let r := env.region i
    if r.brStartBit ≤ bitno ∧ bitno < r.brStartBit + r.brValidBits then
      let blkno := (s.crAg r.ag).bgBlkno
      some (if blkno = env.sFirstClusterGroup then 0 else blkno,
        (bitno - r.brStartBit + r.bitOffset) % 2 ^ 16)
    else findGd env s bitno rest

/-- `ocfs2_chain_alloc`: the block of the group, the bit in the group and the bit. -/
def chainAlloc : C (Nat × Nat × Nat) := do
  let bitno ← findNextClear env 0
  let oldval ← bitmapSet env bitno
  if oldval then fail .internalFailure
  else do
    let s ← Prog.get
    match findGd env s bitno env.tree.toList with
    | none => fail .internalFailure
    | some (gdBlkno, suballocBit) => pure (gdBlkno, suballocBit, bitno)

/-- `ocfs2_chain_free`. -/
def chainFree (bitno : Nat) : C Unit := do
  let oldval ← bitmapClear env bitno
  if oldval then pure () else fail .freeingUnallocatedRegion

/-! ### Ranges -/

/-- `end - start` as it is compared with a `uint64_t`. -/
def runLength (start stop : Nat) : Nat :=
  if start ≤ stop then stop - start else 2 ^ 64 - (start - stop)

/-- The search of `alloc_range_func` in one region: the first run of clear bits that has
    `len` bits, or the longest run if that has `minLen`. -/
def searchRun (bm : List UInt8) (totalBits minLen len : Nat) :
    Nat → Nat → Option (Nat × Nat) → Option (Nat × Nat)
  | 0, _, _ => none
  | fuel + 1, start, best =>
    let fallback := best.bind fun b => if b.2 < minLen then none else some (b.1, b.1 + b.2)
    if (start + minLen) % 2 ^ 64 ≤ totalBits then
      let start := findNextBitClear bm totalBits start
      if start = totalBits then fallback
      else
        let stop := findNextBitSet bm totalBits start
        if len ≤ runLength start stop then some (start, start + len)
        else
          let bestLen := (best.map Prod.snd).getD 0
          let best := if bestLen < runLength start stop then some (start, runLength start stop)
            else best
          searchRun bm totalBits minLen len fuel (stop + 1) best
    else fallback

/-- The loop that sets the bits of the run, from `start` on. -/
def setRun (env : Env) (i : Nat) : Nat → Nat → C Unit
  | 0, _ => pure ()
  | count + 1, start => do
    let r := env.region i
    let _ ← setGenericShared env i (r.brStartBit + start - r.brBitmapStart)
    setRun env i count (start + 1)

/-- `alloc_range_func` over the regions: the first bit and the number of bits. -/
def allocRangeIn (env : Env) (minLen len : Nat) : List Nat → C (Option (Nat × Nat))
  | [] => pure none
  | i :: rest => do
    let s ← Prog.get
    let r := env.region i
    let free : Int := r.brValidBits - s.brSetBits i
    if 0 ≤ free ∧ free < minLen then allocRangeIn env minLen len rest
    else
      match searchRun (s.brBitmap i) r.brTotalBits minLen len (r.brTotalBits + 1)
          r.brBitmapStart none with
      | none => allocRangeIn env minLen len rest
      | some (start, stop) => do
        setRun env i (stop - start) start
        pure (some (r.brStartBit + start - r.brBitmapStart, stop - start))

/-- `ocfs2_chain_alloc_range`. -/
def chainAllocRange (minLen len : Nat) : C (Nat × Nat) := do
  if minLen = 0 ∨ len = 0 ∨ env.bTotalBits ≤ len ∨ len < minLen then fail .invalidArgument
  else do
    match ← allocRangeIn env minLen len env.tree.toList with
    | none => fail .bitNotFound
    | some (firstBit, bitsFound) => do
      check (decide (minLen ≤ bitsFound))
      pure (firstBit, bitsFound)

/-- The loop of `ocfs2_bitmap_clear_range_generic`. -/
def clearRun (env : Env) (i : Nat) : Nat → Nat → C Unit
  | 0, _ => pure ()
  | count + 1, bitno => do
    let _ ← clearGenericShared env i bitno
    clearRun env i count (bitno + 1)

/-- `ocfs2_chain_free_range`. -/
def chainFreeRange (len startBit : Nat) : C Unit :=
  if len = 0 ∨ env.bTotalBits < (len + startBit) % 2 ^ 64 then fail .invalidArgument
  else
    match (lookup env startBit len env.tree none).1 with
    | none => fail .invalidBit
    | some i => clearRun env i ((startBit + len) % 2 ^ 64 - startBit) startBit

/-! ### Writing -/

def lowMask (offset : Nat) : UInt8 := UInt8.ofNat (255 >>> (8 - offset))
def highMask (offset : Nat) : UInt8 := UInt8.ofNat (255 <<< offset)

/-- Bits before the region, in its first byte, are those of the group. -/
def mergeHead (r : Region) (gbm bm : List UInt8) : List UInt8 :=
  if r.bitOffset = 0 then bm
  else
    let offset := r.bitOffset % 8
    bm.modify 0 fun b => (b &&& highMask offset) |||
      (gbm.getD (r.bitOffset / 8) 0 &&& lowMask offset)

/-- Bits behind the region, in its last byte, are those of the group. -/
def mergeTail (r : Region) (gbm bm : List UInt8) : List UInt8 :=
  if r.brTotalBits % 8 = 0 then bm
  else
    let stop := r.bitOffset + r.brValidBits
    let offset := stop % 8
    bm.modify (r.brTotalBits / 8) fun b =>
      (b &&& lowMask offset) ||| (gbm.getD (stop / 8) 0 &&& highMask offset)

def copyBytes (dst : List UInt8) (at_ : Nat) (src : List UInt8) : List UInt8 :=
  dst.take at_ ++ src ++ dst.drop (at_ + src.length)

/-- `chainalloc_write_group`. If the write fails, `fault` is what the block holds after it. -/
def writeGroup (fault : Nat → Option GroupDesc) (i : Nat) : C Unit := fun s =>
  if s.crDirty i then
    let r := env.region i
    let ag := s.crAg r.ag
    let bm := mergeTail r ag.bgBitmap (mergeHead r ag.bgBitmap (s.brBitmap i))
    let ag := { ag with bgBitmap := copyBytes ag.bgBitmap (r.bitOffset / 8) bm }
    let t := { s with
      brBitmap := update s.brBitmap i bm
      crAg := update s.crAg r.ag ag }
    match fault i with
    | some torn => some (.error .io, { t with disk := update s.disk r.ag torn })
    | none => some (.ok (), { t with
        disk := update s.disk r.ag ag
        crDirty := update s.crDirty i false })
  else some (.ok (), s)

/-- `ocfs2_bitmap_foreach_region` with `chainalloc_write_group`. -/
def writeGroups (env : Env) (fault : Nat → Option GroupDesc) : List Nat → C Unit
  | [] => pure ()
  | i :: rest => do
    writeGroup env fault i
    writeGroups env fault rest

/-- `ocfs2_write_cached_inode`, after which the allocator is clean. -/
def writeCachedInode (inodeFault : Option ChainInode) : C Unit := fun s =>
  match inodeFault with
  | some torn => some (.error .io, { s with diskInode := torn })
  | none => some (.ok (), { s with diskInode := s.inode, cbDirty := false })

/-- `ocfs2_write_chain_allocator`. -/
def writeChainAllocator (fault : Nat → Option GroupDesc)
    (inodeFault : Option ChainInode) : C Unit := do
  let s ← Prog.get
  if s.cbDirty then do
    writeGroups env fault env.tree.toList
    writeCachedInode inodeFault
  else pure ()

end Ocfs2Tools.ChainAlloc
