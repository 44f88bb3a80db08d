import Ocfs2Tools.Device

/-!
# Scanning all inodes

`inode_scan.c` returns the blocks of all inode allocators, one with every call. The cursors
are those of `struct _ocfs2_inode_scan`: the allocator, the chain and the group at hand, the
offset in the group, the record of a group in several pieces, and what is left in the
buffer. A state the code takes to be impossible ends in `abort()`.

Reading blocks succeeds. Reading a group descriptor is a function of the environment.
-/

namespace Ocfs2Tools.InodeScan

open Prog

/-! ### What is scanned -/

/-- `struct ocfs2_chain_rec`. -/
structure ChainRec where
  cTotal : Nat
  cBlkno : Nat
deriving DecidableEq, Repr

/-- An inode allocator: `i_total` and the chain records in use. -/
structure AllocInode where
  iTotal : Nat
  clRecs : List ChainRec
deriving DecidableEq, Repr

/-- `struct ocfs2_group_desc`. `bgRecs` are the records in use of `bg_list`, which lies
    behind the bitmap of a group of at most `8 * maxBgBitmapSize` bits. -/
structure GroupDesc where
  bgBlkno : Nat
  bgBits : Nat
  bgNextGroup : Nat
  bgRecs : List ExtentRec
deriving DecidableEq, Repr

/-- `OCFS2_MAX_BG_BITMAP_SIZE`. -/
def maxBgBitmapSize : Nat := 256

variable (fs : Filesys)

/-- `ocfs2_clusters_per_group`. -/
def clustersPerGroup : Nat :=
  let megabytes := match fs.fsBlocksize with
    | 4096 => 4
    | 2048 => 4
    | 1024 => 2
    | _ => 1
  megabytes * 2 ^ 20 / 2 ^ fs.sClustersizeBits

/-- What a scan reads: the allocators, the group descriptors, and the blocks. -/
structure Env where
  fs : Filesys
  inodeAlloc : List AllocInode
  readGroupDesc : Nat → Except Errcode GroupDesc
  blocks : Nat → List UInt8

/-- `OPEN_SCAN_BUFFER_SIZE`. -/
def openScanBufferSize : Nat := 4 * 1024 * 1024

/-- `struct _ocfs2_inode_scan`. `curBlock` is the buffer from `cur_block` on. -/
structure Scan where
  nextInodeFile : Nat
  curInodeAlloc : Option AllocInode
  curRec : Option ChainRec
  nextRec : Nat
  curDesc : Option GroupDesc
  count : Nat
  curBlkno : Nat
  curBlock : List (List UInt8)
  bufferBlocks : Nat
  blocksInBuffer : Int
  blocksLeft : Nat
  bOffset : Nat
  curDiscontigRec : Nat

/-- `ocfs2_open_inode_scan`. -/
def openInodeScan : Scan where
  nextInodeFile := 0
  curInodeAlloc := none
  curRec := none
  nextRec := 0
  curDesc := none
  count := 0
  curBlkno := 0
  curBlock := []
  bufferBlocks := openScanBufferSize / fs.fsBlocksize
  blocksInBuffer := 0
  blocksLeft := 0
  bOffset := 0
  curDiscontigRec := 0

abbrev S (α : Type) : Type := Prog Scan Errcode α

/-! ### The functions of `inode_scan.c` -/

variable (env : Env)

/-- `get_next_group`. -/
def getNextGroup : S Unit := do
  let s ← Prog.get
  check (s.curDesc.isSome || s.bOffset == 0)
  let curBlkno := if s.bOffset ≠ 0 then (s.curDesc.map GroupDesc.bgNextGroup).getD 0 else s.curBlkno
  check (curBlkno != 0)
  Prog.modify fun s => { s with curBlkno := curBlkno }
  let gd ← ofExcept (env.readGroupDesc curBlkno)
  Prog.modify fun s => { s with curDesc := some gd }
  if gd.bgBlkno ≠ curBlkno then fail .corruptGroupDesc
  else
    -- past the descriptor itself
    Prog.modify fun s => { s with
      curBlkno := s.curBlkno + 1
      count := addW 32 s.count 1
      blocksLeft := subW 32 s.blocksLeft 1
      bOffset := 1
      curDiscontigRec := 0 }

/-- `get_next_chain`; there is a current allocator whenever it is called. -/
def getNextChain : S Unit := do
  let s ← Prog.get
  match s.curInodeAlloc with
  | none => abort
  | some di =>
    match di.clRecs[s.nextRec]? with
    | none => if s.nextRec = 0 then fail .corruptChain else abort
    | some r => Prog.modify fun s => { s with
        curRec := some r
        nextRec := s.nextRec + 1
        count := 0
        bOffset := 0
        curBlkno := r.cBlkno }

/-- How many blocks of the group `gd` can be read next, as far as the buffer goes. -/
def readableBlocks (gd : GroupDesc) : S Int := do
  let s ← Prog.get
  if gd.bgRecs = [] then pure (min ((gd.bgBits : Int) - s.bOffset) s.bufferBlocks)
  else if s.curDiscontigRec = gd.bgRecs.length then abort
  else
    let r := gd.bgRecs.getD s.curDiscontigRec ExtentRec.zero
    let recEnd := clustersToBlocks env.fs (addW 32 r.eCpos r.eLeafClusters)
    if recEnd < s.bOffset then abort
    else if s.bOffset < recEnd then pure (min ((recEnd : Int) - s.bOffset) s.bufferBlocks)
    else do
      -- the piece has been read to its end
      let r := gd.bgRecs.getD (s.curDiscontigRec + 1) ExtentRec.zero
      Prog.modify fun s => { s with
        curDiscontigRec := s.curDiscontigRec + 1
        curBlkno := r.eBlkno }
      pure (min (clustersToBlocks env.fs r.eLeafClusters : Int) s.bufferBlocks)

/-- `get_next_read_blocks`. -/
def getNextReadBlocks : S Int := do
  let s ← Prog.get
  match s.curDesc with
  | none => abort
  | some gd => readableBlocks env gd

def Scan.chainDone (s : Scan) : Bool :=
  match s.curRec with
  | none => true
  | some r => s.count == r.cTotal

def Scan.groupDone (s : Scan) : Bool :=
  s.bOffset == 0 || s.curDesc.map GroupDesc.bgBits == some s.bOffset

/-- The two checks of `fill_group_buffer`. -/
def Scan.checks (s : Scan) : Bool :=
  match s.curRec, s.curDesc with
  | none, _ => true
  | some r, some gd => decide (s.count ≤ r.cTotal) && decide (s.bOffset ≤ gd.bgBits)
  | some _, none => false

def chainStep : S Unit := do
  let s ← Prog.get
  if s.chainDone then getNextChain else pure ()

def groupStep : S Unit := do
  let s ← Prog.get
  if s.groupDone then getNextGroup env else pure ()

def readStep : S Unit := do
  let numBlocks ← getNextReadBlocks env
  Prog.modify fun s => { s with
    bOffset := s.bOffset + numBlocks.toNat
    blocksInBuffer := numBlocks
    curBlock := (List.range' s.curBlkno numBlocks.toNat).map env.blocks }

/-- `fill_group_buffer`. -/
def fillGroupBuffer : S Unit := do
  let s ← Prog.get
  check s.checks
  chainStep
  groupStep env
  readStep env

/-- The loop of `get_next_inode_alloc`: go on to an allocator that is not empty. -/
def nextInodeAlloc : List AllocInode → Scan → Option AllocInode × Scan
  | [], s => (none, s)
  | a :: as, s =>
    let s := { s with curInodeAlloc := some a, nextInodeFile := s.nextInodeFile + 1 }
    if a.iTotal = 0 then nextInodeAlloc as s else (some a, s)

/-- `get_next_inode_alloc`: whether the allocators are used up. -/
def getNextInodeAlloc : S Bool := do
  let s ← Prog.get
  check (s.curInodeAlloc.isNone || s.blocksLeft == 0)
  match nextInodeAlloc (env.inodeAlloc.drop s.nextInodeFile) s with
  | (none, s) => do
    Prog.modify fun _ => s
    pure true
  | (some a, s) => do
    Prog.modify fun _ => { s with
      nextRec := 0
      count := 0
      curBlkno := 0
      curRec := none
      blocksLeft := a.iTotal }
    pure false

/-- The first part of `ocfs2_get_next_inode`: whether there is nothing left. -/
def allocStep : S Bool := do
  let s ← Prog.get
  if s.blocksLeft = 0 then do
    check (s.blocksInBuffer == 0)
    getNextInodeAlloc env
  else pure false

def fillStep : S Unit := do
  let s ← Prog.get
  if s.blocksInBuffer = 0 then fillGroupBuffer env else pure ()

def takeBlock : S (Nat × Option (List UInt8)) := do
  let s ← Prog.get
  Prog.modify fun s => { s with
    curBlock := s.curBlock.tail
    blocksInBuffer := s.blocksInBuffer - 1
    blocksLeft := subW 32 s.blocksLeft 1
    curBlkno := s.curBlkno + 1
    count := addW 32 s.count 1 }
  pure (s.curBlkno, some (s.curBlock.headD []))

/-- `ocfs2_get_next_inode`: the number of the block, and its content unless the number is 0
    because there are no more. -/
def getNextInode : S (Nat × Option (List UInt8)) := do
  let out ← allocStep env
  if out then pure (0, none)
  else do
    fillStep env
    takeBlock

/-! ### Consistent allocators -/

/-- The pieces of a group abut from cluster `c` on and end at cluster `e`. -/
def Abut : Nat → List ExtentRec → Nat → Prop
  | c, [], e => c = e
  | c, r :: rs, e => r.eCpos = c ∧ 0 < r.eLeafClusters ∧ r.eBlkno ≠ 0 ∧
      Abut (c + r.eLeafClusters) rs e

instance decidableAbut : ∀ c rs e, Decidable (Abut c rs e)
  | c, [], e => inferInstanceAs (Decidable (c = e))
  | c, r :: rs, e =>
    have := decidableAbut (c + r.eLeafClusters) rs e
    inferInstanceAs (Decidable (r.eCpos = c ∧ 0 < r.eLeafClusters ∧ r.eBlkno ≠ 0 ∧ _))

/-- A group in order: it holds more than its descriptor; if it consists of pieces, they
    abut, and the first starts with the descriptor. -/
structure GroupOk (g : GroupDesc) : Prop where
  bits : 1 < g.bgBits
  bits_le : g.bgBits ≤ 8 * maxBgBitmapSize
  recs : g.bgRecs ≠ [] → (g.bgRecs.getD 0 ExtentRec.zero).eBlkno = g.bgBlkno ∧
    ∃ e, Abut 0 g.bgRecs e ∧ g.bgBits = clustersToBlocks fs e

/-- The group descriptors from block `blkno` on, linked by `bg_next_group`. -/
def Linked (read : Nat → Except Errcode GroupDesc) : Nat → List GroupDesc → Prop
  | blkno, [] => blkno = 0
  | blkno, g :: gs => blkno ≠ 0 ∧ read blkno = .ok g ∧ g.bgBlkno = blkno ∧
      Linked read g.bgNextGroup gs

def totalBits (gs : List GroupDesc) : Nat := (gs.map GroupDesc.bgBits).sum

/-- The chain of the groups `gs`. -/
structure ChainOk (c : ChainRec) (gs : List GroupDesc) : Prop where
  ne : gs ≠ []
  linked : Linked env.readGroupDesc c.cBlkno gs
  groups : ∀ g ∈ gs, GroupOk env.fs g
  total : c.cTotal = totalBits gs

/-- The allocator with the chains `chains`. -/
structure AllocOk (a : AllocInode) (chains : List (List GroupDesc)) : Prop where
  recs : List.Forall₂ (ChainOk env) a.clRecs chains
  total : a.iTotal = (chains.map totalBits).sum
  fits : a.iTotal < 2 ^ 32

/-- The allocators are consistent, with the groups `layout`, by allocator and chain. -/
def Consistent (layout : List (List (List GroupDesc))) : Prop :=
  List.Forall₂ (AllocOk env) env.inodeAlloc layout

def recBlocks (r : ExtentRec) : List Nat :=
  List.range' r.eBlkno (clustersToBlocks fs r.eLeafClusters)

/-- The blocks of a group; the first one is the descriptor. -/
def groupBlocks (g : GroupDesc) : List Nat :=
  if g.bgRecs = [] then List.range' g.bgBlkno g.bgBits else g.bgRecs.flatMap (recBlocks fs)

def groupsTodo (gs : List GroupDesc) : List Nat :=
  gs.flatMap fun g => (groupBlocks fs g).tail

def chainsTodo (chains : List (List GroupDesc)) : List Nat :=
  chains.flatMap (groupsTodo fs)

def allocsTodo (layout : List (List (List GroupDesc))) : List Nat :=
  layout.flatMap (chainsTodo fs)

/-- Calls from `s` on return the given blocks with their content, and then 0. -/
def Yields (env : Env) : Scan → List Nat → Prop
  | s, [] => ∃ t, getNextInode env s = some (.ok (0, none), t)
  | s, b :: bs => ∃ t, getNextInode env s = some (.ok (b, some (env.blocks b)), t) ∧ Yields env t bs

theorem clustersPerGroup_bits : 1 < clustersToBlocks fs (clustersPerGroup fs) ∧
      clustersToBlocks fs (clustersPerGroup fs) ≤ 8 * maxBgBitmapSize := by
  have hc := fs.clustersize_ge
  have hc' := fs.clustersize_le
  have hb := fs.blocksize_ge
  have hb' := fs.blocksize_le
  have hcut : ∀ m, m * 2 ^ 20 / 2 ^ fs.sClustersizeBits * fs.bpc =
      m * 2 ^ (20 - fs.sBlocksizeBits) := by
    intro m
    have h1 : 20 = (20 - fs.sClustersizeBits) + fs.sClustersizeBits := by omega
    have h2 : 20 - fs.sBlocksizeBits =
        (20 - fs.sClustersizeBits) + (fs.sClustersizeBits - fs.sBlocksizeBits) := by omega
    rw [show m * 2 ^ 20 = m * 2 ^ (20 - fs.sClustersizeBits) * 2 ^ fs.sClustersizeBits by
        rw [Nat.mul_assoc, ← Nat.pow_add, ← h1],
      Nat.mul_div_cancel _ (Nat.two_pow_pos _), h2, Nat.pow_add, Nat.mul_assoc, Filesys.bpc]
  have hbits : fs.sBlocksizeBits = 9 ∨ fs.sBlocksizeBits = 10 ∨ fs.sBlocksizeBits = 11 ∨
      fs.sBlocksizeBits = 12 := by omega
  rw [clustersToBlocks, clustersPerGroup, hcut, Filesys.fsBlocksize]
  rcases hbits with h | h | h | h <;> rw [h] <;> decide

end Ocfs2Tools.InodeScan
