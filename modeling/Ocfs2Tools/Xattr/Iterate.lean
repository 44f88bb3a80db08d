import Ocfs2Tools.ExtentTree.Path

/-!
# Iterating over extended attributes

`ocfs2_xattr_iterate` of `xattr.c` hands every extended attribute entry of an inode to a
callback: those in the inode body, and those of the external block, which holds either the
entries themselves or the root of a tree that maps name hashes to extents of buckets. The
tree is walked from its right end by looking up smaller and smaller hashes.

A callback asks to stop with a bit in what it returns; a read that fails leaves its error
code in the context. Both travel up through the same four loops.
-/

namespace Ocfs2Tools.Xattr

open Prog

/-! ### The attributes of an inode -/

/-- `struct ocfs2_xattr_entry`. -/
structure XattrEntry where
  xeNameHash : Nat
  xeNameOffset : Nat
  xeNameLen : Nat
  xeType : Nat
  xeValueSize : Nat
deriving DecidableEq, Repr

/-- `struct ocfs2_xattr_header` with its entries in use: `xh_count` is their number. -/
structure XattrHeader where
  xhNumBuckets : Nat
  xhEntries : List XattrEntry
deriving DecidableEq, Repr

/-- `struct ocfs2_xattr_block`: `OCFS2_XATTR_INDEXED` says which half of the union it is. -/
inductive XattrBlock where
  | plain (xbHeader : XattrHeader)
  | indexed (xtList : ExtentList)

/-- What the iterator reads of an inode. `ibody` is the header that lies
    `i_xattr_inline_size` bytes before the end of the inode block. -/
structure XattrInode where
  iBlkno : Nat
  hasXattrFl : Bool
  inlineXattrFl : Bool
  ibody : XattrHeader
  iXattrLoc : Nat

/-- What reading a block, or the blocks of a bucket, gives after the checksum and the
    signature are checked. `supported` is `ocfs2_support_xattr`. -/
structure XattrDev where
  supported : Bool
  block : Nat → Except Errcode XattrBlock
  bucket : Nat → Except Errcode XattrHeader

def xattrBucketSize : Nat := 4096

/-- `OCFS2_XATTR_SIZE`. -/
def xattrSize (size : Nat) : Nat := (size + 3) / 4 * 4

/-- `ocfs2_xattr_buckets_per_cluster`. -/
def bucketsPerCluster (fs : Filesys) : Nat := fs.fsClustersize / xattrBucketSize

/-- `ocfs2_blocks_per_xattr_bucket`. -/
def blocksPerBucket (fs : Filesys) : Nat := xattrBucketSize / fs.fsBlocksize

/-- What the callback is handed: the entry with its place (`index` is that of the pointer in
    `xh_entries`), and the block and the offset from the header at which its value starts. -/
structure XattrCall where
  xeBlkno : Nat
  index : Nat
  xe : XattrEntry
  valueBlkno : Nat
  valueOffset : Nat
  inBucket : Bool
deriving DecidableEq, Repr

/-- `OCFS2_XATTR_ABORT` and `OCFS2_XATTR_ERROR` in the value a callback returns. -/
structure XattrFlags where
  abort : Bool
  error : Bool
deriving DecidableEq, Repr

def XattrFlags.nothing : XattrFlags := ⟨false, false⟩

/-- `iret & (OCFS2_XATTR_ABORT | OCFS2_XATTR_ERROR)`. -/
def XattrFlags.stops (f : XattrFlags) : Bool := f.abort || f.error

/-- A callback: it sees one entry and the caller's data. -/
abbrev XattrFunc (κ : Type) : Type := XattrCall → κ → XattrFlags × κ

/-- The part of `struct xattr_iterate_ctxt` that changes. -/
structure XattrCtxt (κ : Type) where
  errcode : Option Errcode
  privData : κ

/-! ### The functions of `xattr.c` -/

variable {κ : Type} (fs : Filesys) (xd : XattrDev) (func : XattrFunc κ)

def callFor (xeBlkno : Nat) (inBucket : Bool) (i : Nat) (xe : XattrEntry) : XattrCall :=
  let valueOffset := xe.xeNameOffset + xattrSize xe.xeNameLen
  ⟨xeBlkno, i, xe, xeBlkno + valueOffset / fs.fsBlocksize, valueOffset, inBucket⟩

/-- The loop of `ocfs2_xattr_iterate_entries`. -/
def entriesLoop (xeBlkno : Nat) (inBucket : Bool) :
    Nat → List XattrEntry → XattrFlags → κ → XattrFlags × κ
  | _, [], iret, p => (iret, p)
  | i, xe :: rest, _, p =>
    let (iret, p) := func (callFor fs xeBlkno inBucket i xe) p
    if iret.stops then (iret, p) else entriesLoop xeBlkno inBucket (i + 1) rest iret p

/-- `ocfs2_xattr_iterate_entries`. -/
def xattrIterateEntries (xeBlkno : Nat) (xh : XattrHeader) (inBucket : Bool)
    (ctxt : XattrCtxt κ) : XattrFlags × XattrCtxt κ :=
  let (iret, p) := entriesLoop fs func xeBlkno inBucket 0 xh.xhEntries .nothing ctxt.privData
  (iret, { ctxt with privData := p })

/-- `ocfs2_xattr_iterate_ibody`. -/
def xattrIterateIbody (di : XattrInode) (ctxt : XattrCtxt κ) : XattrFlags × XattrCtxt κ :=
  if di.inlineXattrFl then xattrIterateEntries fs func di.iBlkno di.ibody false ctxt
  else (.nothing, ctxt)

/-- The loop of `ocfs2_xattr_iterate_bucket` from its second turn on: `n` buckets are left.
    What the entries of a bucket return replaces what those of the one before returned. -/
def bucketLoop : Nat → Nat → XattrFlags → XattrCtxt κ → XattrFlags × XattrCtxt κ
  | 0, _, iret, ctxt => (iret, ctxt)
  | n + 1, blkno, iret, ctxt =>
    match xd.bucket blkno with
    | .error e => (iret, { ctxt with errcode := some e })
    | .ok xh =>
      let (iret, ctxt) := xattrIterateEntries fs func blkno xh true { ctxt with errcode := none }
      bucketLoop n (blkno + blocksPerBucket fs) iret ctxt

/-- `if (ctxt->errcode) iret |= OCFS2_XATTR_ERROR`. -/
def noteError (r : XattrFlags × XattrCtxt κ) : XattrFlags × XattrCtxt κ :=
  (if r.2.errcode.isSome then { r.1 with error := true } else r.1, r.2)

/-- `ocfs2_xattr_iterate_bucket`. The number of buckets is taken from the first one as soon
    as it is read. -/
def xattrIterateBucket (blkno clusters : Nat) (ctxt : XattrCtxt κ) : XattrFlags × XattrCtxt κ :=
  noteError <|
    if (clusters * bucketsPerCluster fs) % 2 ^ 32 = 0 then
      (.nothing, { ctxt with errcode := none })
    else
      match xd.bucket blkno with
      | .error e => (.nothing, { ctxt with errcode := some e })
      | .ok xh =>
        let (iret, ctxt) := xattrIterateEntries fs func blkno xh true { ctxt with errcode := none }
        bucketLoop fs xd func (xh.xhNumBuckets - 1) (blkno + blocksPerBucket fs) iret ctxt

/-- The search of `ocfs2_xattr_get_rec` in a leaf list. A record without a block counts as
    not found. -/
def leafRec (el : ExtentList) (nameHash : Nat) : M ExtentRec :=
  match el.live.reverse.find? fun r => decide (r.eCpos ≤ nameHash) with
  | some r => if r.eBlkno = 0 then fail .invalidArgument else pure r
  | none => fail .invalidArgument

/-- `ocfs2_xattr_get_rec`; the record it finds stands for its three out parameters. -/
def xattrGetRec (xb : XattrBlock) (nameHash : Nat) : M ExtentRec :=
  match xb with
  | .plain _ => fail .invalidArgument
  | .indexed el =>
    if el.lTreeDepth = 0 then leafRec el nameHash
    else do
      let eb ← treeFindLeaf fs el nameHash
      if eb.hList.lTreeDepth = 0 then leafRec eb.hList nameHash
      else fail .invalidArgument

/-- The loop of `ocfs2_xattr_iterate_index_block`. Each turn lowers `name_hash`, so a loop
    with more fuel than that never runs out of it. -/
def indexLoop (xb : XattrBlock) :
    Nat → Nat → XattrFlags → XattrCtxt κ → M (XattrFlags × XattrCtxt κ)
  | 0, _, _, _ => abort
  | n + 1, nameHash, iret, ctxt =>
    if nameHash = 0 then pure (iret, ctxt)
    else do
      match ← attempt (xattrGetRec fs xb nameHash) with
      | .error e => pure (iret, { ctxt with errcode := some e })
      | .ok r =>
        let (iret, ctxt) := xattrIterateBucket fs xd func r.eBlkno r.eLeafClusters
          { ctxt with errcode := none }
        if iret.stops then pure (iret, ctxt)
        else if r.eCpos = 0 then pure (iret, ctxt)
        else indexLoop xb n (r.eCpos - 1) iret ctxt

/-- `ocfs2_xattr_iterate_index_block` on the tree with the root list `el`. -/
def xattrIterateIndexBlock (el : ExtentList) (ctxt : XattrCtxt κ) : M (XattrFlags × XattrCtxt κ) :=
  if el.lNextFreeRec = 0 then pure (.nothing, ctxt)
  else do
    let r ← indexLoop fs xd func (.indexed el) (uint32Max + 1) uint32Max .nothing ctxt
    pure (noteError r)

/-- `ocfs2_read_xattr_block`. -/
def readXattrBlock (blkno : Nat) : Except Errcode XattrBlock :=
  if outOfRange fs blkno then .error .badBlkno else xd.block blkno

/-- `ocfs2_xattr_iterate_block`. -/
def xattrIterateBlock (di : XattrInode) (ctxt : XattrCtxt κ) : M (XattrFlags × XattrCtxt κ) :=
  if di.iXattrLoc = 0 then pure (.nothing, ctxt)
  else
    match readXattrBlock fs xd di.iXattrLoc with
    | .error e => pure (noteError (.nothing, { ctxt with errcode := some e }))
    | .ok (.plain xh) =>
      pure (noteError (xattrIterateEntries fs func di.iXattrLoc xh false
        { ctxt with errcode := none }))
    | .ok (.indexed el) => do
      let r ← xattrIterateIndexBlock fs xd func el { ctxt with errcode := none }
      pure (noteError r)

/-- The inode body, and then the block unless the body was told to stop. -/
def bodyThenBlock (di : XattrInode) (ctxt : XattrCtxt κ) : M (XattrFlags × XattrCtxt κ) :=
  if (xattrIterateIbody fs func di ctxt).1.stops then pure (xattrIterateIbody fs func di ctxt)
  else xattrIterateBlock fs xd func di (xattrIterateIbody fs func di ctxt).2

/-- `ocfs2_xattr_iterate`: what it returns, and the caller's data. -/
def xattrIterate (di : XattrInode) (p : κ) : M (Except Errcode Unit × κ) :=
  if xd.supported = false ∨ di.hasXattrFl = false then pure (.ok (), p)
  else do
    let (iret, ctxt) ← bodyThenBlock fs xd func di ⟨none, p⟩
    match iret.error, ctxt.errcode with
    | true, some e => pure (.error e, ctxt.privData)
    | _, _ => pure (.ok (), ctxt.privData)

end Ocfs2Tools.Xattr
