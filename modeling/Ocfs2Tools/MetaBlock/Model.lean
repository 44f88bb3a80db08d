import Ocfs2Tools.Format
import Ocfs2Tools.BlockCheck.Model

/-!
# Reading and writing metadata blocks

The functions that read and write an inode (`inode.c`), an extent block
(`extents.c`), a group descriptor (`chain.c`), a refcount block (`refcount.c`) and an
extended attribute block (`xattr.c`). A block is its bytes; the host is little endian,
so the swap functions do nothing. `addr` is where the function's own copy of the block
is allocated, which always succeeds here.
-/

namespace Ocfs2Tools.MetaBlock

open Prog BlockCheck

/-- The error codes of the functions. -/
inductive MetaError where
  | roFilesys
  | badBlkno
  | io
  | badCrc32
  | badInodeMagic
  | badExtentBlockMagic
  | corruptExtentBlock
  | badGroupDescMagic
  | badXattrBlockMagic
deriving DecidableEq, Repr

/-- The file system with its feature `metaecc` and the flags `OCFS2_FLAG_RW` and
    `OCFS2_FLAG_NO_ECC_CHECKS` it was opened with. -/
structure MetaFs extends Filesys where
  metaEcc : Bool
  rw : Bool
  noEccChecks : Bool

/-- The blocks of the device, `none` where a read fails, and the buffer the caller passed. -/
structure MetaSt where
  dev : Nat → Option (List UInt8)
  buf : List UInt8

abbrev MetaIo (α : Type) : Type := Prog MetaSt MetaError α

/-! ### Checksums and blocks -/

def computeMetaEcc (fs : MetaFs) (addr bc : Nat) (blk : List UInt8) : MetaIo (List UInt8) :=
    fun s =>
  if fs.metaEcc then
    match blockCheckCompute addr bc blk with
    | none => none
    | some blk => some (.ok blk, s)
  else some (.ok blk, s)

def validateMetaEcc (fs : MetaFs) (addr bc : Nat) (blk : List UInt8) : MetaIo (List UInt8) :=
    fun s =>
  if fs.metaEcc && !fs.noEccChecks then
    match blockCheckValidate addr bc blk with
    | none => none
    | some (.ok (), blk) => some (.ok blk, s)
    | some (.error .badCrc32, _) => some (.error .badCrc32, s)
  else some (.ok blk, s)

/-- `ocfs2_read_blocks` of one block. -/
def readBlock (blkno : Nat) : MetaIo (List UInt8) := fun s =>
  match s.dev blkno with
  | none => some (.error .io, s)
  | some blk => some (.ok blk, s)

/-- `io_write_block` of one block. -/
def writeBlock (blkno : Nat) (blk : List UInt8) : MetaIo Unit :=
  Prog.modify fun s => { s with dev := fun b => if b = blkno then some blk else s.dev b }

/-- `memcpy` of the block to the caller's buffer. -/
def copyOut (blk : List UInt8) : MetaIo Unit := Prog.modify fun s => { s with buf := blk }

def ascii (s : String) : List UInt8 := s.toList.map fun c => UInt8.ofNat c.toNat

/-- `memcmp` with the signature says equal. -/
def hasSignature (sig blk : List UInt8) : Bool := blk.take sig.length == sig

/-- The block number check all of the functions begin with. -/
def checkBlkno (fs : MetaFs) (blkno : Nat) : MetaIo Unit :=
  if blkno < superBlockBlkno ∨ fs.fsBlocks < blkno then fail .badBlkno else pure ()

def le16At (blk : List UInt8) (off : Nat) : Nat := leNat ((blk.drop off).take 2)

def le32At (blk : List UInt8) (off : Nat) : Nat := leNat ((blk.drop off).take 4)

/-! ### Writing -/

/-- What the write functions have in common; `bc` is the offset of the check field. -/
def writeMeta (fs : MetaFs) (addr bc blkno : Nat) : MetaIo Unit := do
  if !fs.rw then fail .roFilesys
  else do
    checkBlkno fs blkno
    let s ← Prog.get
    let blk ← computeMetaEcc fs addr bc s.buf
    writeBlock blkno blk

variable (fs : MetaFs) (addr blkno : Nat)

def writeInode : MetaIo Unit := writeMeta fs addr 0x80 blkno
def writeExtentBlock : MetaIo Unit := writeMeta fs addr 0x08 blkno
def writeGroupDesc : MetaIo Unit := writeMeta fs addr 0x30 blkno
def writeRefcountBlock : MetaIo Unit := writeMeta fs addr 0x20 blkno
def writeXattrBlock : MetaIo Unit := writeMeta fs addr 0x18 blkno

/-! ### Reading -/

/-- `ocfs2_read_inode`: the signature is checked and the block copied out before it is validated. -/
def readInode : MetaIo Unit := do
  checkBlkno fs blkno
  let blk ← readBlock blkno
  if !hasSignature (ascii "INODE01") blk then fail .badInodeMagic
  else do
    copyOut blk
    let _ ← validateMetaEcc fs addr 0x80 blk
    pure ()

/-- What the other read functions have in common: the block is validated, its signature
    checked, and only then copied out. -/
def readMeta (fs : MetaFs) (addr bc : Nat) (sig : List UInt8) (magic : MetaError) (blkno : Nat) :
    MetaIo Unit := do
  checkBlkno fs blkno
  let blk ← readBlock blkno
  let blk ← validateMetaEcc fs addr bc blk
  if !hasSignature sig blk then fail magic else copyOut blk

def readExtentBlockNocheck : MetaIo Unit :=
  readMeta fs addr 0x08 (ascii "EXBLK01") .badExtentBlockMagic blkno

/-- `h_list.l_next_free_rec > h_list.l_count` in an extent block. -/
def ebOverflows (blk : List UInt8) : Bool := le16At blk 0x32 < le16At blk 0x34

def readExtentBlock : MetaIo Unit := do
  readExtentBlockNocheck fs addr blkno
  let s ← Prog.get
  if ebOverflows s.buf then fail .corruptExtentBlock else pure ()

def readGroupDesc : MetaIo Unit :=
  readMeta fs addr 0x30 (ascii "GROUP01") .badGroupDescMagic blkno

/-- A refcount block with another signature is reported as a bad extent block. -/
def readRefcountBlockNocheck : MetaIo Unit :=
  readMeta fs addr 0x20 (ascii "REFCNT1") .badExtentBlockMagic blkno

/-- The list of a refcount block, of extents with `OCFS2_REFCOUNT_TREE_FL` and of
    records without, claims to use more than it has. -/
def rbOverflows (blk : List UInt8) : Bool :=
  if le32At blk 0x34 &&& 0x2 != 0 then le16At blk 0x82 < le16At blk 0x84
  else le16At blk 0x80 < le16At blk 0x82

def readRefcountBlock : MetaIo Unit := do
  readRefcountBlockNocheck fs addr blkno
  let s ← Prog.get
  if rbOverflows s.buf then fail .corruptExtentBlock else pure ()

def readXattrBlock : MetaIo Unit :=
  readMeta fs addr 0x18 (ascii "XATTR01") .badXattrBlockMagic blkno

/-! ### The five kinds of block -/

inductive Kind where
  | inode
  | extentBlock
  | groupDesc
  | refcountBlock
  | xattrBlock
deriving DecidableEq, Repr

namespace Kind

def check : Kind → Nat
  | inode => 0x80
  | extentBlock => 0x08
  | groupDesc => 0x30
  | refcountBlock => 0x20
  | xattrBlock => 0x18

def signature : Kind → List UInt8
  | inode => ascii "INODE01"
  | extentBlock => ascii "EXBLK01"
  | groupDesc => ascii "GROUP01"
  | refcountBlock => ascii "REFCNT1"
  | xattrBlock => ascii "XATTR01"

/-- The list of the block claims to use more than it has. -/
def overflows : Kind → List UInt8 → Bool
  | extentBlock, blk => ebOverflows blk
  | refcountBlock, blk => rbOverflows blk
  | _, _ => false

def write : Kind → MetaFs → Nat → Nat → MetaIo Unit
  | inode => writeInode
  | extentBlock => writeExtentBlock
  | groupDesc => writeGroupDesc
  | refcountBlock => writeRefcountBlock
  | xattrBlock => writeXattrBlock

def read : Kind → MetaFs → Nat → Nat → MetaIo Unit
  | inode => readInode
  | extentBlock => readExtentBlock
  | groupDesc => readGroupDesc
  | refcountBlock => readRefcountBlock
  | xattrBlock => readXattrBlock

/-- A block of this kind that its read function has nothing against. -/
structure Valid (k : Kind) (blk : List UInt8) : Prop where
  signature : hasSignature k.signature blk = true
  list : k.overflows blk = false

end Kind

end Ocfs2Tools.MetaBlock
