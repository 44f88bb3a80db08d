import Ocfs2Tools.Lib.ChainWalk
import Ocfs2Tools.BlockIterate
import Ocfs2Tools.Dir.Dirent

/-!
# Iterating over a directory

`ocfs2_dir_iterate` of `dir_iterate.c` hands the entries of a directory to a callback. The
same loop walks over the blocks of a directory and over the inode block of an inline one,
always up to the end of the block. A block is checked once more when it is read: the
function that swaps its entries also tests their lengths.

The callbacks only look at the entries, and ask to stop or not.
-/

namespace Ocfs2Tools.Dir

variable {κ : Type} (fs : Filesys) {b : Buf}

/-! ### What the iterator reads -/

/-- `struct ocfs2_dir_entry`. -/
structure Dirent where
  inode : Nat
  recLen : Nat
  nameLen : Nat
  fileType : Nat
  name : List UInt8
deriving DecidableEq, Repr

def direntAt (b : Buf) (a : Nat) : Dirent :=
  ⟨inode b a, recLen b a, nameLen b a, fileType b a, bytesAt b (a + dirMemberLen) (nameLen b a)⟩

/-- The features of the file system that matter here, and what reading gives: `read` is what
    `ocfs2_read_blocks` leaves in the buffer, `ecc` the verdict of the checksum, `inodeBuf`
    the block of the directory's inode. Behind the end of the block a buffer goes on with
    what happens to lie there in memory. -/
structure DirEnv where
  supportInlineData : Bool
  supportIndexedDirs : Bool
  metaEcc : Bool
  inodeBuf : Buf
  read : Nat → Except Errcode Buf
  ecc : Nat → Except Errcode Unit

def indexedDirFl : Nat := 0x0008

/-- `S_ISDIR`. -/
def isDirMode (mode : Nat) : Bool := mode / 4096 % 16 == 4

/-- `OCFS2_DIRENT_FLAG_*`. -/
structure DirentFlags where
  includeEmpty : Bool
  includeRemoved : Bool
  excludeDots : Bool
  includeTrailer : Bool
deriving DecidableEq, Repr

def DirentFlags.none : DirentFlags := ⟨false, false, false, false⟩

/-- What the callback of `ocfs2_dir_iterate2` is handed; `entry` is `OCFS2_DIRENT_DOT_FILE`
    and so on. -/
structure DirCall2 where
  dir : Nat
  entry : Nat
  dirent : Dirent
  blocknr : Nat
  offset : Nat
deriving DecidableEq, Repr

/-- What the callback of `ocfs2_dir_iterate` is handed. -/
structure DirCall where
  dirent : Dirent
  blocknr : Nat
  offset : Nat
deriving DecidableEq, Repr

def direntOtherFile : Nat := 3
def direntDeletedFile : Nat := 4

/-- A callback: whether it returns `OCFS2_DIRENT_ABORT`, and the caller's data. -/
abbrev DirFunc2 (κ : Type) : Type := DirCall2 → κ → Bool × κ

abbrev DirFunc (κ : Type) : Type := DirCall → κ → Bool × κ

/-! ### Directory blocks: `dirblock.c` -/

def dirTrailerSize : Nat := 64

variable (env : DirEnv)

/-- `ocfs2_dir_trailer_blk_off`. -/
def dirTrailerBlkOff : Nat := fs.fsBlocksize - dirTrailerSize

/-- `ocfs2_dir_has_trailer`. -/
def dirHasTrailer (di : Dinode) : Bool :=
  if env.supportInlineData && hasFlag di.iDynFeatures inlineDataFl then false
  else if env.supportIndexedDirs && hasFlag di.iDynFeatures indexedDirFl then true
  else env.metaEcc

/-- `ocfs2_skip_dir_trailer`. -/
def skipDirTrailer (di : Dinode) (offset : Nat) : Bool :=
  dirHasTrailer env di && offset == dirTrailerBlkOff fs

/-- The loop of `ocfs2_swap_dir_entries_direction` over the first `stop` bytes, on a host
    that has nothing to swap: whether it finds a corrupt entry. -/
def swapDirEntries (b : Buf) (stop : Nat) : Nat → Nat → Bool
  | 0, _ => false
  | n + 1, p =>
    if p + 12 < stop then
      let corrupt := decide (recLen b p < 12) || recLen b p % 4 != 0
      let len := if corrupt then 12 else recLen b p
      corrupt || decide (len < nameLen b p + 12) || swapDirEntries b stop n (p + len)
    else false

/-- `"DIRTRL1"`. -/
def dirTrailerSignature : List UInt8 := [68, 73, 82, 84, 82, 76, 49]

/-- `ocfs2_swap_dir_entries_to_cpu` on a buffer that needs no swapping. -/
def swapDirEntriesToCpu (b : Buf) (stop : Nat) : Except Errcode Buf :=
  if swapDirEntries b stop stop 0 then .error .dirCorrupted else .ok b

def checkDirTrailer (block : Nat) (b : Buf) : Except Errcode Unit :=
  match env.ecc block with
  | .error e => .error e
  | .ok _ =>
    if bytesAt b (dirTrailerBlkOff fs + 16) 7 = dirTrailerSignature then .ok ()
    else .error .badDirBlockMagic

/-- `ocfs2_read_dir_block`. -/
def readDirBlock (di : Dinode) (block : Nat) : Except Errcode Buf :=
  match env.read block with
  | .error e => .error e
  | .ok b =>
    if dirHasTrailer env di then
      match checkDirTrailer fs env block b with
      | .error e => .error e
      | .ok _ => swapDirEntriesToCpu b (dirTrailerBlkOff fs)
    else swapDirEntriesToCpu b fs.fsBlocksize

/-! ### The functions of `dir_iterate.c` -/

/-- `ocfs2_validate_entry`. -/
def validateEntry (b : Buf) (finalOffset : Nat) : Nat → Nat → Bool
  | 0, offset => offset == finalOffset
  | n + 1, offset =>
    if offset < finalOffset then
      if recLen b offset < 8 ∨ recLen b offset % 4 ≠ 0 ∨ recLen b offset < nameLen b offset + 8
      then false
      else validateEntry b finalOffset n (offset + recLen b offset)
    else offset == finalOffset

/-- The inner loop that looks for a removed entry behind a shorter one. -/
def nextRemoved (b : Buf) (finalOffset : Nat) : Nat → Nat → Nat
  | 0, offset => offset
  | n + 1, offset =>
    if offset < finalOffset ∧ validateEntry b finalOffset (finalOffset - offset) offset = false then
      nextRemoved b finalOffset n (offset + 4)
    else offset

def nextOffset (flags : DirentFlags) (b : Buf) (offset : Nat) : Nat :=
  if flags.includeRemoved then
    let size := (nameLen b offset + 11) / 4 * 4
    if recLen b offset ≠ size then
      nextRemoved b (offset + recLen b offset) (recLen b offset) (offset + size)
    else offset + recLen b offset
  else offset + recLen b offset

/-- `is_dots`. -/
def isDots (d : Dirent) : Bool := d.name == [46] || d.name == [46, 46]

/-- The check of `ocfs2_process_dir_entry`, as far as it lets an entry pass. -/
def entryPasses (b : Buf) (offset : Nat) : Bool :=
  decide (offset + recLen b offset ≤ fs.fsBlocksize) && decide (8 ≤ recLen b offset) &&
    recLen b offset % 4 == 0 && decide (nameLen b offset + 8 ≤ recLen b offset)

def entrySkipped (di : Dinode) (flags : DirentFlags) (b : Buf)
    (offset : Nat) : Bool :=
  if skipDirTrailer fs env di offset then !flags.includeTrailer
  else if inode b offset == 0 && !flags.includeEmpty then true
  else flags.excludeDots && isDots (direntAt b offset)

/-- How `ocfs2_process_dir_entry` ends. -/
inductive WalkEnd where
  | through
  | aborted
  | corrupted
deriving DecidableEq, Repr

/-- The loop of `ocfs2_process_dir_entry`. Every turn moves `offset` on, so that a block has
    fewer turns than bytes. -/
def processDirEntry (fs : Filesys) (env : DirEnv) (di : Dinode) (flags : DirentFlags)
    (func : DirFunc2 κ) (blocknr : Nat) (b : Buf) : Nat → Nat → Nat → Nat → κ → WalkEnd × κ
  | 0, _, _, _, p => (.through, p)
  | n + 1, offset, entry, nextReal, p =>
    if offset < fs.fsBlocksize then
      let nextReal' := if nextReal = offset then nextReal + recLen b offset else nextReal
      if entryPasses fs b offset = false then (.corrupted, p)
      else if entrySkipped fs env di flags b offset then
        processDirEntry fs env di flags func blocknr b n (nextOffset flags b offset) entry
          nextReal' p
      else
        let kind := if offset < nextReal then direntDeletedFile else entry
        let (abort, p) := func ⟨di.iBlkno, kind, direntAt b offset, blocknr, offset⟩ p
        let entry := if entry < direntOtherFile then entry + 1 else entry
        if abort then (.aborted, p)
        else processDirEntry fs env di flags func blocknr b n (nextOffset flags b offset) entry
          nextReal' p
    else (.through, p)

/-- `struct dir_context`, as far as it changes. -/
structure DirContext (κ : Type) where
  errcode : Option Errcode
  privData : κ

/-- `return ctx.errcode`. -/
def DirContext.result (ctx : DirContext κ) : Except Errcode Unit :=
  match ctx.errcode with
  | some e => .error e
  | none => .ok ()

/-- `offsetof(struct ocfs2_dinode, id2.i_data.id_data)`. -/
def idDataOffset : Nat := 200

/-- `ocfs2_inline_dir_iterate`: what it returns, and the context. -/
def inlineDirIterate (di : Dinode) (flags : DirentFlags)
    (func : DirFunc2 κ) (ctx : DirContext κ) : Except Errcode Unit × DirContext κ :=
  match processDirEntry fs env di flags func di.iBlkno env.inodeBuf fs.fsBlocksize idDataOffset 1 0
    ctx.privData with
  | (.corrupted, p) => (.error .blockAbort, ⟨some .dirCorrupted, p⟩)
  | (_, p) => (.ok (), { ctx with privData := p })

/-- `ocfs2_process_dir_block`, and whether it returns `OCFS2_BLOCK_ABORT`. -/
def processDirBlock (di : Dinode) (flags : DirentFlags)
    (func : DirFunc2 κ) : BlockLook (DirContext κ) := fun c ctx =>
  match readDirBlock fs env di c.blkno with
  | .error e => (true, { ctx with errcode := some e })
  | .ok b =>
    match processDirEntry fs env di flags func c.blkno b fs.fsBlocksize 0
      (if c.bcount = 0 then 1 else direntOtherFile) 0 ctx.privData with
    | (.corrupted, p) => (true, ⟨some .dirCorrupted, p⟩)
    | (.aborted, p) => (true, ⟨none, p⟩)
    | (.through, p) => (false, ⟨none, p⟩)

/-- `ocfs2_check_directory`. -/
def checkDirectory (di : Dinode) : M Unit :=
  if outOfRange fs di.iBlkno then Prog.fail .badBlkno
  else if isDirMode di.iMode = false then Prog.fail .noDirectory
  else pure ()

/-- `ocfs2_dir_iterate2` on the directory whose inode the device holds: what it returns, and
    the caller's data. -/
def dirIterate2 (flags : DirentFlags) (func : DirFunc2 κ) (p : κ) :
    M (Except Errcode Unit × κ) := do
  let s ← Prog.get
  let di := s.dev.inode
  checkDirectory fs di
  if env.supportInlineData && hasFlag di.iDynFeatures inlineDataFl then
    match inlineDirIterate fs env di flags func ⟨none, p⟩ with
    | (.error e, ctx) => pure (.error e, ctx.privData)
    | (.ok _, ctx) => pure (ctx.result, ctx.privData)
  else do
    let (_, ctx) ← blockIterateInode fs false
      (fun c ctx => pure (stopFlags (processDirBlock fs env di flags func c ctx).1,
        (processDirBlock fs env di flags func c ctx).2)) di ⟨none, p⟩
    pure (ctx.result, ctx.privData)

/-- `xlate_func`. -/
def xlateFunc (func : DirFunc κ) : DirFunc2 κ := fun c p => func ⟨c.dirent, c.blocknr, c.offset⟩ p

/-- `ocfs2_dir_iterate`. -/
def dirIterate (flags : DirentFlags) (func : DirFunc κ) (p : κ) :
    M (Except Errcode Unit × κ) :=
  dirIterate2 fs env flags (xlateFunc func) p

end Ocfs2Tools.Dir
