import Ocfs2Tools.Lib.Prog
import Ocfs2Tools.Format

/-!
# The device, the state of a run, and extent block I/O

`Device` is what a crash would leave: the extent blocks, the extent allocators'
bitmaps, the inode block and the data blocks. `St` adds what lives in memory
during a call (the root buffer) and what the environment decides: which block each
allocation hands out, and which block writes fail. Every write also records the
device it produced, so that `history` lists the states a crash can expose.

Memory allocation always succeeds and the file system is open read-write.
-/

namespace Ocfs2Tools

variable {a : Unit}

/-- The error codes the modelled functions return. `blockAbort` is `OCFS2_BLOCK_ABORT`, a
    flag of the iterators that one of them hands up as an error code. -/
inductive Errcode where
  | badBlkno
  | badExtentBlockMagic
  | corruptExtentBlock
  | bitNotFound
  | freeingUnallocatedRegion
  | io
  | invalidArgument
  | internalFailure
  | inodeNotValid
  | inodeCannotBeIterated
  | eagain
  | einval
  | roFilesys
  | roUnsuppFeature
  | noSpace
  | dirCorrupted
  | dirNoSpace
  | fileNotFound
  | dxBalanceEmptyLeaf
  | noDirectory
  | badDirBlockMagic
  | blockAbort
  | corruptGroupDesc
  | corruptChain
deriving DecidableEq, Repr

structure Device where
  ebs : Nat → Option ExtentBlock
  used : Nat → Nat → Bool
  inode : Dinode
  blocks : Nat → List UInt8

/-- Something handed back to an allocator: an extent block, a run of data clusters
    (first block, clusters), or a reference to a run of shared clusters. -/
inductive Release where
  | extentBlock (blkno : Nat)
  | clusters (start len : Nat)
  | refcount (start len : Nat)
deriving DecidableEq, Repr

/-- The state of a run. `allocs` is what the extent block allocations of the run
    will find (`none` and the end of the list: nothing); `faults` says which of its
    block writes fail (the end of the list: no more failures). -/
structure St where
  dev : Device
  root : Dinode
  allocs : List (Option Nat)
  faults : List Bool
  history : List Device
  released : List Release

abbrev M (α : Type) : Type := Prog St Errcode α

/-! ### Writes -/

def St.commit (s : St) (dev : Device) : St := { s with dev := dev, history := dev :: s.history }

def Device.setEb (dev : Device) (blkno : Nat) (eb : ExtentBlock) : Device :=
  { dev with ebs := fun b => if b = blkno then some eb else dev.ebs b }

def Device.setUsed (dev : Device) (slot blkno : Nat) (bit : Bool) : Device :=
  { dev with used := fun k b => if k = slot ∧ b = blkno then bit else dev.used k b }

/-- One block write: it takes the next entry of `faults` and either fails with an
    I/O error or leaves the device `f` makes. -/
def writeBlock (f : Device → Device) : M Unit := fun s =>
  match s.faults with
  | true :: fs => some (.error .io, { s with faults := fs })
  | false :: fs => some (.ok (), { s with faults := fs }.commit (f s.dev))
  | [] => some (.ok (), s.commit (f s.dev))

/-- The block number check of the read and write functions. -/
def outOfRange (fs : Filesys) (blkno : Nat) : Bool :=
  decide (blkno < superBlockBlkno) || decide (fs.fsBlocks < blkno)

theorem ne_zero_of_inRange {fs : Filesys} {b : Nat} (h : outOfRange fs b = false) : b ≠ 0 := by
  rintro rfl
  simp [outOfRange, superBlockBlkno] at h

/-! ### Extent blocks -/

/-- `ocfs2_read_extent_block`. -/
def readExtentBlock (fs : Filesys) (blkno : Nat) : M ExtentBlock := fun s =>
  if outOfRange fs blkno then some (.error .badBlkno, s)
  else
    match s.dev.ebs blkno with
    | none => some (.error .badExtentBlockMagic, s)
    | some eb =>
      if eb.hList.lNextFreeRec > eb.hList.lCount then some (.error .corruptExtentBlock, s)
      else some (.ok eb, s)

/-- `ocfs2_write_extent_block`. -/
def writeExtentBlock (fs : Filesys) (blkno : Nat) (eb : ExtentBlock) : M Unit :=
  if outOfRange fs blkno then Prog.fail .badBlkno
  else writeBlock (fun dev => dev.setEb blkno eb)

/-- `ocfs2_write_inode` on the root buffer. -/
def writeInode (fs : Filesys) (di : Dinode) : M Unit :=
  if outOfRange fs di.iBlkno then Prog.fail .badBlkno
  else writeBlock (fun dev => { dev with inode := di })

/-- `ocfs2_chain_alloc_with_io` on the extent allocator of slot 0. -/
def chainAlloc : M Nat := fun s =>
  match s.allocs with
  | some b :: rest =>
    if s.dev.used 0 b then some (.error .internalFailure, { s with allocs := rest })
    else some (.ok b, { s with allocs := rest }.commit (s.dev.setUsed 0 b true))
  | none :: rest => some (.error .bitNotFound, { s with allocs := rest })
  | [] => some (.error .bitNotFound, s)

/-- `ocfs2_chain_free_with_io`. -/
def chainFree (slot blkno : Nat) : M Unit := fun s =>
  if s.dev.used slot blkno then
    some (.ok (), { s with released := .extentBlock blkno :: s.released }.commit
      (s.dev.setUsed slot blkno false))
  else some (.error .freeingUnallocatedRegion, s)

/-- `ocfs2_init_eb` on a zeroed block. -/
def initEb (fs : Filesys) (blkno : Nat) : ExtentBlock where
  hSuballocSlot := 0
  hBlkno := blkno
  hNextLeafBlk := 0
  hList := ⟨0, 0, List.replicate (extentRecsPerEb fs) ExtentRec.zero⟩

/-- `ocfs2_new_extent_block`. The block number is an out parameter: it is set as soon as the bit is,
    also when the write of the block then fails; `0` stands for not set. -/
def newExtentBlock (fs : Filesys) : M (Nat × Except Errcode Unit) := do
  match ← Prog.attempt chainAlloc with
  | .error e => pure (0, .error e)
  | .ok blkno =>
    let r ← Prog.attempt (writeExtentBlock fs blkno (initEb fs blkno))
    pure (blkno, r)

/-- `ocfs2_delete_extent_block`. -/
def deleteExtentBlock (fs : Filesys) (blkno : Nat) : M Unit := do
  let eb ← readExtentBlock fs blkno
  chainFree eb.hSuballocSlot blkno
  writeExtentBlock fs eb.hBlkno eb

/-! ### What the steps of a successful run did -/

variable {fs : Filesys} {s t : St} {blkno : Nat} {eb : ExtentBlock}

def St.advance (s : St) : St := { s with faults := s.faults.tail }

theorem writeBlock_ok {f : Device → Device} (h : writeBlock f s = some (.ok a, t)) :
    t = s.advance.commit (f s.dev) := by
  unfold writeBlock at h
  split at h
  · cases h
  · rename_i hf
    cases h
    simp [St.advance, hf]
  · rename_i hf
    cases h
    simp [St.advance, hf, St.commit]

theorem writeInode_inv {di : Dinode} (h : writeInode fs di s = some (.ok a, t)) :
    t = s.advance.commit { s.dev with inode := di } := by
  unfold writeInode at h
  split at h
  · cases h
  · exact writeBlock_ok h

theorem writeExtentBlock_inv (h : writeExtentBlock fs blkno eb s = some (.ok a, t)) :
    outOfRange fs blkno = false ∧ t = s.advance.commit (s.dev.setEb blkno eb) := by
  unfold writeExtentBlock at h
  cases hr : outOfRange fs blkno with
  | true =>
    rw [hr] at h
    cases h
  | false =>
    rw [hr, if_neg (by decide)] at h
    exact ⟨rfl, writeBlock_ok h⟩

theorem readExtentBlock_inv (h : readExtentBlock fs blkno s = some (.ok eb, t)) :
    t = s ∧ s.dev.ebs blkno = some eb ∧ eb.hList.lNextFreeRec ≤ eb.hList.lCount := by
  unfold readExtentBlock at h
  split at h
  · cases h
  · split at h
    · cases h
    · rename_i heb
      split at h
      · cases h
      · rename_i hle
        cases h
        exact ⟨rfl, heb, le_of_not_gt hle⟩

theorem chainAlloc_inv (h : chainAlloc s = some (.ok blkno, t)) :
    s.allocs.head? = some (some blkno) ∧ s.dev.used 0 blkno = false ∧
      t = { s with allocs := s.allocs.tail }.commit (s.dev.setUsed 0 blkno true) := by
  unfold chainAlloc at h
  split at h
  · rename_i ha
    split at h
    · cases h
    · rename_i hu
      cases h
      simp [ha, hu]
  · cases h
  · cases h

/-- A new block was free, is in range, and is initialised on the device. -/
structure NewBlock (fs : Filesys) (s : St) (blkno : Nat) (t : St) : Prop where
  alloc : s.allocs.head? = some (some blkno)
  free : s.dev.used 0 blkno = false
  range : outOfRange fs blkno = false
  state : t = ({ s with allocs := s.allocs.tail }.commit
    (s.dev.setUsed 0 blkno true)).advance.commit
    ((s.dev.setUsed 0 blkno true).setEb blkno (initEb fs blkno))

theorem newExtentBlock_inv (h : newExtentBlock fs s = some (.ok (blkno, .ok a), t)) :
    NewBlock fs s blkno t := by
  obtain ⟨r, u, hr, h⟩ := Prog.bind_eq_ok h
  obtain ⟨r', hr', halloc⟩ := Prog.attempt_eq hr
  cases hr'
  cases r with
  | error e => cases h
  | ok b =>
    obtain ⟨r2, w, hr2, h⟩ := Prog.bind_eq_ok h
    obtain ⟨r3, hr3, hwrite⟩ := Prog.attempt_eq hr2
    cases hr3
    cases h
    obtain ⟨h1, h2, rfl⟩ := chainAlloc_inv halloc
    obtain ⟨h3, rfl⟩ := writeExtentBlock_inv hwrite
    exact ⟨h1, h2, h3, rfl⟩

end Ocfs2Tools
