import Ocfs2Tools.Device
import Ocfs2Tools.Dir.Dirent

/-!
# Adding names to an indexed directory and removing them

Each block of an indexed directory ends with a trailer, and the trailers of the blocks with
free space form a list that starts in the index root. `ocfs2_dx_dir_build` sets this up,
`ocfs2_unlink_dx` keeps it, and `ocfs2_link` uses free space without a look at it.

A block is the list of its records up to the trailer. Where a name is found in the index,
whether it can be put there, and which block a directory is expanded by are parameters.
-/

namespace Ocfs2Tools.DirSpace

open Prog

open Dir (dirRecLen)

abbrev Name : Type := List UInt8

/-! ### The data -/

/-- `struct ocfs2_dir_entry`; the name of a record that is not in use does not matter. -/
structure Dirent where
  inode : Nat
  recLen : Nat
  name : Name
deriving DecidableEq, Repr

/-- `name_len` has 8 bits. -/
def Dirent.nameLen (de : Dirent) : Nat := de.name.length % 256

/-- `struct ocfs2_dir_block_trailer`. -/
structure Trailer where
  dbFreeRecLen : Nat
  dbFreeNext : Nat
deriving DecidableEq, Repr

structure Block where
  entries : List Dirent
  trailer : Trailer
deriving DecidableEq, Repr

/-- A directory: its blocks in order, each with its number, and the start of the list in the
    index root. -/
structure Directory where
  drFreeBlk : Nat
  blocks : List (Nat × Block)
deriving DecidableEq, Repr

/-- `ocfs2_dir_trailer_blk_off`: a trailer has 64 bytes. -/
def dirTrailerBlkOff (fs : Filesys) : Nat := fs.fsBlocksize - 64

/-! ### Free space -/

/-- `ocfs2_figure_dirent_hole`. -/
def figureDirentHole (de : Dirent) : Nat :=
  if de.inode = 0 then de.recLen else de.recLen - dirRecLen de.nameLen

/-- The loop of `ocfs2_find_max_rec_len`. -/
def largestHole : List Dirent → Nat
  | [] => 0
  | de :: rest => max (figureDirentHole de) (largestHole rest)

/-- `ocfs2_find_max_rec_len`. -/
def findMaxRecLen (entries : List Dirent) : Nat :=
  if dirRecLen 1 ≤ largestHole entries then largestHole entries else 0

/-- `ocfs2_check_dir_entry`, for a record in the block. -/
def checkDirEntry (de : Dirent) : Bool :=
  decide (dirRecLen 1 ≤ de.recLen) && de.recLen % 4 == 0 &&
    decide (dirRecLen de.nameLen ≤ de.recLen)

/-! ### Building the index -/

/-- `ocfs2_check_dir_trailer_space`, from the record at `offset` on. -/
def checkDirTrailerSpace (toff : Nat) : Nat → List Dirent → Except Errcode Unit
  | _, [] => .ok ()
  | offset, de :: rest =>
    let realRecLen := if de.inode ≠ 0 then dirRecLen de.nameLen else dirRecLen 1
    if !checkDirEntry de then .error .dirCorrupted
    else if toff < offset + realRecLen ∧ de.inode ≠ 0 then .error .dirNoSpace
    else checkDirTrailerSpace toff (offset + de.recLen) rest

/-- `dir_trailer_func`: the new start of the list, and the block. -/
def dirTrailerFunc (fs : Filesys) (drFreeBlk blkno : Nat) (entries : List Dirent) :
    Except Errcode (Nat × Block) := do
  checkDirTrailerSpace (dirTrailerBlkOff fs) 0 entries
  let maxRecLen := findMaxRecLen entries
  if maxRecLen ≠ 0 then pure (blkno, ⟨entries, ⟨maxRecLen, drFreeBlk⟩⟩)
  else pure (drFreeBlk, ⟨entries, ⟨0, 0⟩⟩)

/-- `ocfs2_init_dir_trailers`. -/
def initDirTrailers (fs : Filesys) :
    Nat → List (Nat × List Dirent) → Except Errcode (Nat × List (Nat × Block))
  | drFreeBlk, [] => .ok (drFreeBlk, [])
  | drFreeBlk, (blkno, entries) :: rest => do
    let x ← dirTrailerFunc fs drFreeBlk blkno entries
    let y ← initDirTrailers fs x.1 rest
    pure (y.1, (blkno, x.2) :: y.2)

/-- `ocfs2_dx_dir_build`, without the entries of the index. -/
def dxDirBuild (fs : Filesys) (dir : List (Nat × List Dirent)) : Except Errcode Directory := do
  let x ← initDirTrailers fs 0 dir
  pure ⟨x.1, x.2⟩

/-! ### Adding a name -/

abbrev Op (α : Type) : Type := Prog Directory Errcode α

/-- What the index and the allocator give back: the block that `ocfs2_extend_allocation` and
    `ocfs2_extent_map_get_blocks` find for a longer directory, the error of
    `ocfs2_dx_dir_insert_entry` if there is one, and what `ocfs2_dx_dir_search` finds: a
    block, and the position of a record in it. -/
structure Env where
  newBlock : Directory → Except Errcode Nat
  insertEntry : Directory → Name → Option Errcode
  search : Directory → Name → Except Errcode (Nat × Nat)

/-- The first step of `link_proc`: the next record is absorbed if it is not in use. -/
def absorb (blockend offset : Nat) (de : Dirent) : List Dirent → Dirent × List Dirent
  | [] => (de, [])
  | next :: rest =>
    if offset + de.recLen < blockend - 8 ∧ next.inode = 0 ∧
        offset + de.recLen + next.recLen ≤ blockend then
      ({ de with recLen := de.recLen + next.recLen }, rest)
    else (de, next :: rest)

/-- The other steps, with the record that absorbed the next one: the record, those behind it,
    and whether the name is in. -/
def putName (name : Name) (ino : Nat) (de : Dirent) (rest : List Dirent) :
    Dirent × List Dirent × Bool :=
  let recLen := dirRecLen name.length
  if de.inode ≠ 0 then
    let minRecLen := dirRecLen de.nameLen
    if de.recLen < minRecLen + recLen then (de, rest, false)
    else ({ de with recLen := minRecLen }, ⟨0, de.recLen - minRecLen, []⟩ :: rest, false)
  else if de.recLen < recLen then (de, rest, false)
  else (⟨ino, de.recLen, name⟩, rest, true)

/-- `link_proc` on a record and those behind it. -/
def linkProc (blockend : Nat) (name : Name) (ino offset : Nat) (de : Dirent) (rest : List Dirent) :
    Dirent × List Dirent × Bool :=
  putName name ino (absorb blockend offset de rest).1 (absorb blockend offset de rest).2

/-- The check of `ocfs2_process_dir_entry`. -/
def entryCorrupt (fs : Filesys) (offset : Nat) (de : Dirent) : Bool :=
  decide (fs.fsBlocksize < offset + de.recLen) || decide (de.recLen < 8) ||
    de.recLen % 4 != 0 || decide (de.recLen < de.nameLen + 8)

/-- `ocfs2_process_dir_entry` with `link_proc`: the records of the block, and whether the name
    is in; `none` if a record is corrupt. Each round goes at least one byte further, and so
    `fs_blocksize` rounds are enough. -/
def processDirEntry (fs : Filesys) (name : Name) (ino : Nat) :
    Nat → Nat → List Dirent → Option (List Dirent × Bool)
  | 0, _, es => some (es, false)
  | _ + 1, _, [] => some ([], false)
  | fuel + 1, offset, de :: rest =>
    if fs.fsBlocksize ≤ offset then some (de :: rest, false)
    else if entryCorrupt fs offset de then none
    else
      match linkProc (dirTrailerBlkOff fs) name ino offset de rest with
      | (de, rest, true) => some (de :: rest, true)
      | (de, rest, false) =>
        match processDirEntry fs name ino fuel (offset + de.recLen) rest with
        | none => none
        | some (rest, done) => some (de :: rest, done)

/-- `ocfs2_dir_iterate` with `link_proc`. A corrupt block is not written. -/
def linkBlocks (fs : Filesys) (name : Name) (ino : Nat) :
    List (Nat × Block) → List (Nat × Block) × Except Errcode Bool
  | [] => ([], .ok false)
  | (blkno, b) :: rest =>
    match processDirEntry fs name ino fs.fsBlocksize 0 b.entries with
    | none => ((blkno, b) :: rest, .error .dirCorrupted)
    | some (es, true) => ((blkno, ⟨es, b.trailer⟩) :: rest, .ok true)
    | some (es, false) =>
      ((blkno, ⟨es, b.trailer⟩) :: (linkBlocks fs name ino rest).1, (linkBlocks fs name ino rest).2)

def dirIterateLink (fs : Filesys) (name : Name) (ino : Nat) : Op Bool := do
  let d ← Prog.get
  Prog.modify fun d => { d with blocks := (linkBlocks fs name ino d.blocks).1 }
  ofExcept (linkBlocks fs name ino d.blocks).2

/-- `ocfs2_expand_dir`: a new block with one record that is not in use, and an empty trailer. -/
def expandDir (env : Env) (fs : Filesys) : Op Unit := do
  let d ← Prog.get
  let blkno ← ofExcept (env.newBlock d)
  let block := Block.mk [⟨0, dirTrailerBlkOff fs, []⟩] ⟨0, 0⟩
  Prog.modify fun d => { d with blocks := d.blocks ++ [(blkno, block)] }

/-- `ocfs2_dx_dir_insert_entry`. -/
def dxDirInsertEntry (env : Env) (name : Name) : Op Unit := do
  let d ← Prog.get
  match env.insertEntry d name with
  | none => pure ()
  | some e => fail e

/-- `ocfs2_link` on an indexed directory. -/
def link (env : Env) (fs : Filesys) (name : Name) (ino : Nat) : Op Unit := do
  if ino < superBlockBlkno ∨ fs.fsBlocks < ino then fail .invalidArgument
  else do
    let done ← dirIterateLink fs name ino
    if done then dxDirInsertEntry env name
    else do
      expandDir env fs
      let done ← dirIterateLink fs name ino
      if done then dxDirInsertEntry env name else fail .internalFailure

/-! ### Removing a name -/

/-- `__ocfs2_delete_entry` for the record with index `i`; `pde` is the record in front, and
    `none` is a corrupt record. -/
def deleteEntry : Option Dirent → Nat → List Dirent → Option (List Dirent)
  | pde, _, [] => some pde.toList
  | none, 0, de :: rest => if checkDirEntry de then some ({ de with inode := 0 } :: rest) else none
  | some p, 0, de :: rest =>
    if checkDirEntry de then some ({ p with recLen := p.recLen + de.recLen } :: rest) else none
  | pde, i + 1, de :: rest =>
    if checkDirEntry de then (deleteEntry (some de) i rest).map (pde.toList ++ ·) else none

/-- The block and the start of the list after the record was removed. -/
def freeEntry (drFreeBlk blkno : Nat) (es : List Dirent) (t : Trailer) : Nat × Block :=
  let maxRecLen := findMaxRecLen es
  if t.dbFreeRecLen = 0 then (blkno, ⟨es, ⟨maxRecLen, drFreeBlk⟩⟩)
  else (drFreeBlk, ⟨es, ⟨maxRecLen, t.dbFreeNext⟩⟩)

/-- `ocfs2_write_dir_block`. -/
def writeBlock (blocks : List (Nat × Block)) (blkno : Nat) (b : Block) : List (Nat × Block) :=
  blocks.map fun x => if x.1 = blkno then (blkno, b) else x

/-- `ocfs2_unlink_dx`. -/
def unlinkDx (env : Env) (name : Name) : Op Unit := do
  let d ← Prog.get
  let found ← ofExcept (env.search d name)
  match d.blocks.lookup found.1 with
  | none => fail .dirCorrupted
  | some b =>
    match deleteEntry none found.2 b.entries with
    | none => fail .dirCorrupted
    | some es =>
      let x := freeEntry d.drFreeBlk found.1 es b.trailer
      Prog.modify fun d => ⟨x.1, writeBlock d.blocks found.1 x.2⟩

end Ocfs2Tools.DirSpace
