import Ocfs2Tools.FileRead
import Ocfs2Tools.Dir.Listing
import Ocfs2Tools.ExtentTree.Insert

/-!
# From inline data to a cluster

`ocfs2_convert_inline_data_to_extents` of `fileio.c` moves the inline data of an inode to a
new cluster. The data is staged in a block that comes from `malloc` and is not cleared; the
cluster is zeroed on disk first, and then the whole staged block is written over its first
block. For a directory the last entry is stretched to the end of the block, so that what
lies behind the data becomes slack of that entry. A regular file has nothing that would
cover it.
-/

namespace Ocfs2Tools.Dir

open List Prog

variable (fs : Filesys) {b b' : Buf} {s t : St}
  {stop last a x n blkno pStart : Nat} {di : Dinode} {u : Unit} {dev : Device}

/-! ### The function -/

/-- What the conversion gets from outside: the features of the file system, what the allocated block
    holds, the first block and the number of clusters that `ocfs2_new_clusters` finds, and the check
    data of a block. The allocator is asked for at least and at most one cluster. -/
structure ConvertEnv where
  dir : DirEnv
  heap : Buf
  newClusters : Except Errcode (Nat × Nat)
  metaCheck : Buf → List UInt8
  one : ∀ pStart n, newClusters = .ok (pStart, n) → n = 1

variable {env : ConvertEnv}

def Filesys.zeroBlock : List UInt8 := List.replicate fs.fsBlocksize 0

/-- `io_write_block` of one block. -/
def ioWriteBlock (blkno : Nat) (data : List UInt8) : M Unit :=
  writeBlock fun dev => { dev with blocks := fun b => if b = blkno then data else dev.blocks b }

/-- `empty_blocks`. -/
def emptyBlocks (fs : Filesys) : Nat → Nat → M Unit
  | 0, _ => pure ()
  | n + 1, startBlk => do
    ioWriteBlock startBlk (Filesys.zeroBlock fs)
    emptyBlocks fs n (startBlk + 1)

/-- `ocfs2_supports_dir_trailer`. -/
def supportsDirTrailer (env : DirEnv) : Bool := env.metaEcc || env.supportIndexedDirs

/-- The loop of `ocfs2_expand_last_dirent`: the last entry that starts in front of `limit`.
    A loop over entries without length does not end. -/
def lastDirent (b : Buf) (limit : Nat) : Nat → Nat → Option Nat
  | 0, _ => none
  | n + 1, a => if a + recLen b a < limit then lastDirent b limit n (a + recLen b a) else some a

/-- `ocfs2_expand_last_dirent`; the sizes are `uint16_t`. -/
def expandLastDirent (b : Buf) (oldSize newSize : Nat) : Option Buf :=
  (lastDirent b (oldSize % 65536) (oldSize % 65536 + 1) 0).map fun a =>
    setRecLen b a (addW 16 (recLen b a) (subW 16 newSize oldSize))

/-- `ocfs2_init_dir_trailer`. -/
def initDirTrailer (di : Dinode) (blkno : Nat) (b : Buf) : Buf :=
  let off := dirTrailerBlkOff fs
  let b := writeBytes (clearBytes b off dirTrailerSize) (off + 16) dirTrailerSignature
  let b := writeBytes (setRecLen b off dirTrailerSize) (off + 40) (leBytes 8 blkno)
  writeBytes b (off + 48) (leBytes 8 di.iBlkno)

/-- `ocfs2_compute_meta_ecc` with the check field of the trailer. -/
def computeMetaEcc (env : ConvertEnv) (b : Buf) : Buf :=
  if env.dir.metaEcc then writeBytes b (dirTrailerBlkOff fs + 56) (env.metaCheck b) else b

/-- Where the entries of a block are swapped to: `end` of `ocfs2_write_dir_block`. -/
def swapEnd (env : DirEnv) (di : Dinode) : Nat :=
  if dirHasTrailer env di then dirTrailerBlkOff fs else fs.fsBlocksize

/-- `ocfs2_write_dir_block`. -/
def writeDirBlock (env : ConvertEnv) (di : Dinode) (block : Nat) (b : Buf) :
    M Unit :=
  if swapDirEntries b (swapEnd fs env.dir di) (swapEnd fs env.dir di) 0 then
    fail .dirCorrupted
  else ioWriteBlock block (bytesAt (computeMetaEcc fs env b) 0 fs.fsBlocksize)

/-- The block buffer with the inline data in front; without data there is no buffer. -/
def stageInlineData (env : ConvertEnv) (di : Dinode) : M Buf :=
  if di.iSize = 0 then pure env.heap
  else do
    let (_, data) ← inlineDataRead di fs.fsBlocksize 0
    pure (writeBytes env.heap 0 data)

/-- `ocfs2_dinode_new_extent_list`, and the flag of inline data cleared. -/
def newExtentList (di : Dinode) : Dinode :=
  { di with
    iDynFeatures := clearFlag di.iDynFeatures inlineDataFl
    iList := ⟨0, 0, List.replicate (extentRecsPerInode fs) ExtentRec.zero⟩
    idCount := 0
    idData := [] }

/-- `new_size`. -/
def newDirSize (env : DirEnv) : Nat :=
  if supportsDirTrailer env then dirTrailerBlkOff fs else fs.fsBlocksize

/-- The staged block, written over the first block of the cluster. -/
def writeStaged (env : ConvertEnv) (pStart : Nat) (b : Buf) : M Unit := do
  let s ← Prog.get
  let di := s.root
  if di.iSize = 0 then pure ()
  else if isDirMode di.iMode then do
    let b ← ofOption (expandLastDirent b di.iSize (newDirSize fs env.dir))
    let b := if supportsDirTrailer env.dir then initDirTrailer fs di pStart b else b
    let di := { di with iSize := fs.fsBlocksize }
    Prog.modify fun s => { s with root := di }
    writeDirBlock fs env di pStart b
  else ioWriteBlock pStart (bytesAt b 0 fs.fsBlocksize)

/-- The part of the conversion that works on the new cluster. -/
def fillCluster (env : ConvertEnv) (pStart nClusters : Nat) (b : Buf) : M Unit := do
  emptyBlocks fs fs.bpc pStart
  writeStaged fs env pStart b
  treeInsertExtent fs 0 pStart nClusters 0
  let s ← Prog.get
  writeInode fs s.root

/-- `ocfs2_convert_inline_data_to_extents` on the inode in the root buffer. -/
def convertInlineDataToExtents (env : ConvertEnv) : M Unit := do
  let s ← Prog.get
  let b ← stageInlineData fs env s.root
  Prog.modify fun s => { s with root := newExtentList fs s.root }
  let (pStart, nClusters) ← ofExcept env.newClusters
  if nClusters = 0 then pure () else fillCluster fs env pStart nClusters b

/-! ### What it should do -/

def bufOf (data : List UInt8) : Buf := fun x => data.getD x 0

/-- The live entries of the first `stop` bytes. -/
def liveDirents (b : Buf) (stop : Nat) : List (Nat × Nat × List UInt8) :=
  ((soundWalk b stop 0).1.filter fun a => inode b a != 0).map (ident b)

/-- An inode with inline data, which for a directory is tiled by its entries. -/
structure InlineOk (di : Dinode) : Prop where
  inline : hasFlag di.iDynFeatures inlineDataFl = true
  size : di.iSize ≤ di.idCount
  data : di.idCount ≤ di.idData.length
  room : idDataOffset + di.idCount ≤ fs.fsBlocksize
  tiled : isDirMode di.iMode = true → (soundWalk (bufOf di.idData) di.iSize 0).2 = di.iSize

def clusterData (dev : Device) (pStart : Nat) : List UInt8 :=
  (List.range' pStart fs.bpc).flatMap dev.blocks

/-- The block of a converted directory: the live entries are those of the inline data, and
    the entries tile it up to the trailer or the end. -/
structure DirBlockOk (env : DirEnv) (di : Dinode) (b : Buf) : Prop where
  live : liveDirents b (newDirSize fs env) = liveDirents (bufOf di.idData) di.iSize
  tiled : (soundWalk b (newDirSize fs env) 0).2 = newDirSize fs env
  trailer : supportsDirTrailer env = true →
    bytesAt b (dirTrailerBlkOff fs + 16) 7 = dirTrailerSignature

/-- The inode `di` with inline data has been converted: the device maps its first cluster to
    the new one and nothing else, and the data is there. -/
structure Converted (env : ConvertEnv) (di : Dinode) (dev : Device) : Prop where
  extents : hasFlag dev.inode.iDynFeatures inlineDataFl = false
  mapped : ∃ pStart, env.newClusters = .ok (pStart, 1) ∧
    (∀ w, treeMap fs dev.ebs dev.inode.iList w = if w = 0 then some (pStart, 0) else none) ∧
    (isDirMode di.iMode = false → clusterData fs dev pStart =
      di.idData.take di.iSize ++ List.replicate (fs.fsClustersize - di.iSize) 0) ∧
    (isDirMode di.iMode = true → DirBlockOk fs env.dir di (bufOf (dev.blocks pStart)) ∧
      dev.inode.iSize = fs.fsBlocksize)

/-! ### Stretching the last entry -/

variable {fs}

/-- Two buffers agree on what a walk from `a` to `stop` sees, up to the length of the entry
    at `last`. -/
def AgreesBut (b b' : Buf) (stop last a : Nat) : Prop :=
  ∀ x, a ≤ x → x < stop → (x < last + 8 ∨ last + 10 ≤ x) → b' x = b x

theorem AgreesBut.mono {c : Nat} (h : AgreesBut b b' stop last a) (hac : a ≤ c) :
    AgreesBut b b' stop last c :=
  fun x h1 h2 h3 => h x (le_trans hac h1) h2 h3

theorem ident_eq (hok : soundAt b stop a = true) (h : AgreesBut b b' stop last a)
    (hlast : last = a ∨ a + recLen b a ≤ last) : ident b' a = ident b a := by
  obtain ⟨h1, h2, -, h4⟩ := soundAt_iff.mp hok
  have hx : ∀ x, a ≤ x → x < a + recLen b a → x < a + 8 ∨ a + 10 ≤ x → b' x = b x :=
    fun x hx1 hx2 hx3 => h x hx1 (by omega) (by omega)
  have hname : nameLen b' a = nameLen b a := by
    rw [nameLen, nameLen, hx (a + 10) (by omega) (by omega) (by omega)]
  have hnode : inode b' a = inode b a := by
    rw [inode, inode, bytesAt_congr fun x h1 h2 => hx x h1 (by omega) (by omega)]
  have hbytes : bytesAt b' (a + dirMemberLen) (nameLen b a) =
      bytesAt b (a + dirMemberLen) (nameLen b a) := by
    apply bytesAt_congr
    intro x h5 h6
    unfold dirMemberLen at h5 h6
    exact hx x (by omega) (by omega) (by omega)
  rw [ident, ident, hname, hnode, hbytes, fileType, fileType,
    hx (a + 11) (by omega) (by omega) (by omega)]

/-- Where the loop ends, and what a walk over a buffer sees in which only the last entry was
    stretched to a new end. -/
theorem lastDirent_stretch (n a) (hn : stop - a < n) (ha : a < stop)
    (hend : (soundWalk b stop a).2 = stop) :
    ∃ last, lastDirent b stop n a = some last ∧ a ≤ last ∧ last + recLen b last = stop ∧ last + 12 ≤
      stop ∧ stop % 4 = a % 4 ∧ ∀ b' stop', stop ≤ stop' → stop' % 4 = stop % 4 → recLen b' last =
      stop' - last → AgreesBut b b' stop last a → soundWalk b' stop' a = ((soundWalk b stop a).1,
      stop') ∧ ∀ x ∈ (soundWalk b stop a).1, ident b' x = ident b x := by
  induction n generalizing a with
  | zero => omega
  | succ n ih =>
    have hok : soundAt b stop a = true := by
      by_contra h
      have hw : soundWalk b stop a = ([], a) := walk_stop fun h' => h h'.2
      rw [hw] at hend
      exact absurd hend (ne_of_lt ha)
    obtain ⟨h1, h2, h3, h4⟩ := soundAt_iff.mp hok
    have hw := soundWalk_step ha hok
    rw [hw] at hend
    rw [lastDirent]
    by_cases hlt : a + recLen b a < stop
    · -- an entry in front of the last one keeps its length
      obtain ⟨last, hlast, hle, hsum, hmin, hmod, hwalk⟩ := ih (a + recLen b a) (by omega) hlt hend
      refine ⟨last, by rw [if_pos hlt, hlast], by omega, hsum, hmin, by omega, ?_⟩
      intro b' stop' hstop hmod' hlen hag
      obtain ⟨hw', hid⟩ := hwalk b' stop' hstop hmod' hlen (hag.mono (Nat.le_add_right _ _))
      have hhead : SameFor b b' a 12 :=
        fun x hx1 hx2 => hag x hx1 (by omega) (by omega)
      have hrec := recLen_congr hhead
      have hok' : soundAt b' stop' a = true := by
        rw [soundAt_iff, hrec, nameLen_congr hhead]
        exact ⟨by omega, h2, h3, h4⟩
      refine ⟨by rw [soundWalk_step (by omega) hok', hrec, hw', hw], ?_⟩
      rw [hw]
      exact forall_mem_cons.mpr ⟨ident_eq hok hag (.inr hle), hid⟩
    · -- the last entry
      have hsum : a + recLen b a = stop := by omega
      refine ⟨a, by rw [if_neg hlt], le_refl _, hsum, by omega, by omega, ?_⟩
      intro b' stop' hstop hmod' hlen hag
      have hname : nameLen b' a = nameLen b a := by
        rw [nameLen, nameLen, hag (a + 10) (by omega) (by omega) (by omega)]
      have hok' : soundAt b' stop' a = true := by
        rw [soundAt_iff]
        exact ⟨by omega, by omega, by omega, by omega⟩
      have hdone : ∀ b stop, soundWalk b stop stop = ([], stop) :=
        fun b stop => walk_stop fun h => absurd h.1 (lt_irrefl _)
      rw [soundWalk_step (by omega) hok', hlen, Nat.add_sub_cancel' (by omega), hdone, hw,
        hsum, hdone]
      exact ⟨rfl, forall_mem_singleton.mpr (ident_eq hok hag (.inl rfl))⟩

/-! ### The block of a directory -/

theorem newDirSize_bounds (fs : Filesys) (env : DirEnv) :
    fs.fsBlocksize ≤ newDirSize fs env + 64 ∧ newDirSize fs env ≤ fs.fsBlocksize ∧
      newDirSize fs env < 65536 ∧ newDirSize fs env % 4 = 0 := by
  have hle := fs.fsBlocksize_le
  have hmod : fs.fsBlocksize % 4 = 0 :=
    Nat.mod_eq_zero_of_dvd (Nat.pow_dvd_pow 2 (m := 2) (le_trans (by decide) fs.blocksize_ge))
  unfold newDirSize dirTrailerBlkOff dirTrailerSize
  split <;> omega

theorem initDirTrailer_outside (di : Dinode) (blkno : Nat) (hx : x < dirTrailerBlkOff fs) :
    initDirTrailer fs di blkno b x = b x := by
  unfold initDirTrailer
  rw [writeBytes_outside (by omega), writeBytes_outside (by omega), setRecLen_outside (by omega),
    writeBytes_outside (by omega), clearBytes_outside (by omega)]

theorem computeMetaEcc_outside (hx : x < dirTrailerBlkOff fs + 56) :
    computeMetaEcc fs env b x = b x := by
  unfold computeMetaEcc
  split
  · exact writeBytes_outside (.inl hx)
  · rfl

variable (fs b) in
theorem initDirTrailer_signature (di : Dinode) (blkno : Nat) :
    bytesAt (initDirTrailer fs di blkno b) (dirTrailerBlkOff fs + 16) 7 = dirTrailerSignature := by
  unfold initDirTrailer
  rw [bytesAt_writeBytes_outside (.inl (by omega)), bytesAt_writeBytes_outside (.inl (by omega)),
    setRecLen, bytesAt_writeBytes_outside (.inr (by rw [leBytes_length]; omega))]
  exact bytesAt_writeBytes_inside (show 0 + 7 ≤ dirTrailerSignature.length by decide)

def dirImage (fs : Filesys) (env : ConvertEnv) (di : Dinode) (blkno : Nat) (b : Buf) : Buf :=
  computeMetaEcc fs env (if supportsDirTrailer env.dir then initDirTrailer fs di blkno b else b)

theorem dirImage_outside (di : Dinode) (blkno : Nat) (hx : x < dirTrailerBlkOff fs) :
    dirImage fs env di blkno b x = b x := by
  unfold dirImage
  rw [computeMetaEcc_outside (by omega)]
  split
  · exact initDirTrailer_outside di blkno hx
  · rfl

variable (fs b) in
theorem dirImage_signature (di : Dinode) (blkno : Nat) (hsup : supportsDirTrailer env.dir = true) :
    bytesAt (dirImage fs env di blkno b) (dirTrailerBlkOff fs + 16) 7 = dirTrailerSignature := by
  rw [← initDirTrailer_signature fs b di blkno, dirImage, if_pos hsup]
  apply bytesAt_congr
  intro x _ hx
  exact computeMetaEcc_outside (by omega)

theorem bufOf_bytesAt (hx : x < n) : bufOf (bytesAt b 0 n) x = b x := by
  rw [bufOf, getD_eq_getElem?_getD, bytesAt_getElem? b 0 n x hx, Nat.zero_add]
  rfl

theorem liveDirents_eq {stop' : Nat} (hw : (soundWalk b' stop' 0).1 = (soundWalk b stop 0).1)
    (hid : ∀ x ∈ (soundWalk b stop 0).1, ident b' x = ident b x) :
    liveDirents b' stop' = liveDirents b stop := by
  unfold liveDirents
  have hfilter : (soundWalk b stop 0).1.filter (fun a => inode b' a != 0) =
      (soundWalk b stop 0).1.filter (fun a => inode b a != 0) := by
    apply filter_congr
    intro x hx
    have hnode : inode b' x = inode b x := congrArg Prod.fst (hid x hx)
    rw [hnode]
  rw [hw, hfilter]
  apply map_congr_left
  intro x hx
  exact hid x (mem_filter.mp hx).1

def staged (env : ConvertEnv) (di : Dinode) : Buf := writeBytes env.heap 0 (di.idData.take di.iSize)

section Inline

variable (h : InlineOk fs di)

include h

theorem InlineOk.size_le_block : di.iSize ≤ fs.fsBlocksize :=
  le_trans h.size (le_trans (Nat.le_add_left _ _) h.room)

theorem InlineOk.take_length : (di.idData.take di.iSize).length = di.iSize := by
  rw [length_take]
  have := h.size
  have := h.data
  omega

theorem InlineOk.staged_inside (hx : x < di.iSize) : staged env di x = bufOf di.idData x := by
  have hlen := h.take_length
  have hdata : x < di.idData.length := lt_of_lt_of_le hx (le_trans h.size h.data)
  rw [staged, writeBytes, if_pos (Nat.zero_le _), Nat.sub_zero,
    getD_eq_getElem _ _ (by rw [hlen]; exact hx), getElem_take, bufOf,
    getD_eq_getElem _ _ hdata]

variable (env) in
theorem InlineOk.size_le : di.iSize ≤ newDirSize fs env.dir ∧ di.iSize < dirTrailerBlkOff fs := by
  have h1 := h.size
  have h2 := h.room
  have h3 := newDirSize_bounds fs env.dir
  unfold idDataOffset at h2
  unfold dirTrailerBlkOff dirTrailerSize
  omega

variable (env) in
theorem InlineOk.staged_walk (hdir : isDirMode di.iMode = true) (hpos : 0 < di.iSize) :
    soundWalk (staged env di) di.iSize 0 = ((soundWalk (bufOf di.idData) di.iSize 0).1, di.iSize) ∧
      ∀ x ∈ (soundWalk (bufOf di.idData) di.iSize 0).1,
        ident (staged env di) x = ident (bufOf di.idData) x := by
  obtain ⟨l, -, -, hl, hmin, -, hwalk⟩ := lastDirent_stretch (di.iSize + 1) 0 (by omega) hpos
    (h.tiled hdir)
  have hrec : recLen (staged env di) l = recLen (bufOf di.idData) l :=
    recLen_congr fun x _ hx => h.staged_inside (by omega)
  exact hwalk (staged env di) di.iSize (le_refl _) rfl (by omega) fun x _ hx _ => h.staged_inside hx

theorem InlineOk.expandLastDirent (hdir : isDirMode di.iMode = true) (hpos : 0 < di.iSize)
    (di' : Dinode) (blkno : Nat) :
    ∃ c, expandLastDirent (staged env di) di.iSize (newDirSize fs env.dir) = some c ∧
      DirBlockOk fs env.dir di
        (bufOf (bytesAt (dirImage fs env di' blkno c) 0 fs.fsBlocksize)) := by
  obtain ⟨hle, hlt⟩ := h.size_le env
  obtain ⟨-, hnew, hsmall, hmod4⟩ := newDirSize_bounds fs env.dir
  obtain ⟨hw, hid⟩ := h.staged_walk env hdir hpos
  obtain ⟨last, hlast, -, hsum, hmin, hmod, hwalk⟩ := lastDirent_stretch (di.iSize + 1) 0
    (by omega) hpos (by rw [hw])
  have hold : di.iSize % 65536 = di.iSize := Nat.mod_eq_of_lt (by omega)
  have hrec : addW 16 (recLen (staged env di) last)
      (subW 16 (newDirSize fs env.dir) di.iSize) = newDirSize fs env.dir - last := by
    rw [subW_eq hle hsmall, addW_eq (by omega)]
    omega
  refine ⟨setRecLen (staged env di) last (newDirSize fs env.dir - last),
    by rw [Dir.expandLastDirent, hold, hlast, Option.map_some, hrec], ?_⟩
  generalize hc : setRecLen (staged env di) last (newDirSize fs env.dir - last) = c
  -- in front of the trailer the device holds what was staged, apart from the one length
  have himage : ∀ x, x < dirTrailerBlkOff fs →
      bufOf (bytesAt (dirImage fs env di' blkno c) 0 fs.fsBlocksize) x = c x := by
    intro x hx
    rw [bufOf_bytesAt (lt_of_lt_of_le hx (Nat.sub_le _ _)), dirImage_outside di' blkno hx]
  have hlen : recLen (bufOf (bytesAt (dirImage fs env di' blkno c) 0 fs.fsBlocksize)) last =
      newDirSize fs env.dir - last := by
    rw [← recLen_congr fun x _ hx => (himage x (by omega)).symm, ← hc]
    exact recLen_setRecLen (by omega)
  obtain ⟨hw', hid'⟩ := hwalk _ (newDirSize fs env.dir) hle (by omega) hlen
    (fun x _ hx hne => by rw [himage x (by omega), ← hc, setRecLen_outside hne])
  rw [hw] at hw' hid'
  refine ⟨liveDirents_eq (by rw [hw']) fun x hx => (hid' x hx).trans (hid x hx), by rw [hw'], ?_⟩
  intro hsup
  rw [← dirImage_signature fs c di' blkno hsup]
  apply bytesAt_congr
  intro x _ hx
  exact bufOf_bytesAt (by unfold dirTrailerBlkOff dirTrailerSize at hx; omega)

end Inline

/-! ### A run that succeeds -/

def withBlock (dev : Device) (blkno : Nat) (data : List UInt8) : Device :=
  { dev with blocks := fun b => if b = blkno then data else dev.blocks b }

theorem ioWriteBlock_inv {data : List UInt8} (h : ioWriteBlock blkno data s = some (.ok u, t)) :
    t = s.advance.commit (withBlock s.dev blkno data) :=
  writeBlock_ok h

theorem ofOption_inv {α : Type} {o : Option α} {a : α}
    (h : (ofOption o : M α) s = some (.ok a, t)) : t = s ∧ o = some a := by
  cases o with
  | none => cases h
  | some x =>
    cases h
    exact ⟨rfl, rfl⟩

theorem emptyBlocks_inv : ∀ n startBlk {s},
    emptyBlocks fs n startBlk s = some (.ok u, t) → t.root = s.root ∧
      t.dev = { s.dev with blocks := fun b =>
        if startBlk ≤ b ∧ b < startBlk + n then Filesys.zeroBlock fs else s.dev.blocks b }
  | 0, startBlk, s, h => by
    cases h
    refine ⟨rfl, ?_⟩
    have : ∀ b, ¬ (startBlk ≤ b ∧ b < startBlk + 0) := fun b => by omega
    simp only [this, if_false]
  | n + 1, startBlk, s, h => by
    obtain ⟨_, s1, hw, h⟩ := bind_eq_ok h
    obtain rfl := ioWriteBlock_inv hw
    obtain ⟨hr, hd⟩ := emptyBlocks_inv n (startBlk + 1) h
    refine ⟨hr, hd.trans (congrArg (Device.mk _ _ _) (funext fun b => ?_))⟩
    simp only [St.commit, withBlock]
    by_cases h1 : b = startBlk
    · rw [if_neg (by omega), if_pos h1, if_pos (by omega)]
    · rw [if_neg h1]
      split
      · rw [if_pos (by omega)]
      · rw [if_neg (by omega)]

def withFirst (di : Dinode) (r : ExtentRec) : Dinode :=
  { di with
    iList := { di.iList.setRec 0 r with lNextFreeRec := 1 }
    iClusters := addW 32 di.iClusters r.eLeafClusters }

section First

variable (hd : s.root.iList.lTreeDepth = 0) (hn : s.root.iList.lNextFreeRec = 0)

include hd hn

theorem figureInsertType_first (r : ExtentRec) (eb : ExtentBlock) : figureInsertType fs r eb s =
      some (.ok (eb, s.root.iList.freeRecords, ⟨.none, true, .none, 0⟩), s) := by
  have hlive : s.root.iList.live = [] := by rw [ExtentList.live, hn, take_zero]
  rw [figureInsertType, bind_ok (get_run s), if_pos hd, figureContigType, hlive,
    figureAppendingType, if_pos hn]
  rfl

theorem doInsertExtent_first (r : ExtentRec) : doInsertExtent fs r ⟨.none, true, .none, 0⟩ s =
      some (.ok (), { s with root := withFirst s.root r }) := by
  have hleaf : insertAtLeaf fs r s.root.iList ⟨.none, true, .none, 0⟩ =
      some { s.root.iList.setRec 0 r with lNextFreeRec := 1 } := by
    rw [insertAtLeaf, if_neg (not_not_intro hd), if_neg (by decide), if_neg (by decide),
      if_pos (.inl hn)]
  rw [doInsertExtent, bind_ok (get_run s), if_pos hd, hleaf]
  rfl

theorem treeInsertExtent_first (hc : 0 < s.root.iList.lCount) (cpos blkno clusters flag : Nat) :
    treeInsertExtent fs cpos blkno clusters flag s =
      writeInode fs (withFirst s.root (insertRecOf cpos blkno clusters flag))
        { s with root := withFirst s.root (insertRecOf cpos blkno clusters flag) } := by
  have hfree : ¬ (ContigType.none = .none ∧ s.root.iList.freeRecords = 0) := by
    rw [ExtentList.freeRecords]
    omega
  have hbackup : backupRoot fs s = some (.ok none, s) := by
    rw [backupRoot, bind_ok (get_run s), if_pos hd]
    rfl
  have hins : insertRecord fs (insertRecOf cpos blkno clusters flag) s = some (.ok (),
      { s with root := withFirst s.root (insertRecOf cpos blkno clusters flag) }) := by
    rw [insertRecord, bind_ok (figureInsertType_first hd hn _ _)]
    dsimp only
    rw [if_neg hfree]
    exact doInsertExtent_first hd hn _
  rw [treeInsertExtent, bind_ok hbackup, bind_ok (attempt_run hins)]
  rfl

end First

theorem treeMap_withFirst {ebs : Nat → Option ExtentBlock} (hd : di.iList.lTreeDepth = 0)
    (hc : 0 < di.iList.lCount) (r : ExtentRec) (hr : r.eLeafClusters ≠ 0) (w : Nat) :
    treeMap fs ebs (withFirst di r).iList w = r.phys fs w := by
  have hlive : (withFirst di r).iList.live = [r] := by
    obtain ⟨x, xs, hx⟩ := exists_cons_of_length_pos hc
    simp [withFirst, ExtentList.live, ExtentList.setRec, hx]
  have hrecs : diskRecs ebs (withFirst di r).iList = [r] := by
    rw [diskRecs, show (withFirst di r).iList.lTreeDepth = 0 from hd]
    show (withFirst di r).iList.nonempty = [r]
    rw [ExtentList.nonempty, hlive]
    simp [isEmptyExtent, hr]
  rw [treeMap, hrecs, recsMap]
  cases h : r.phys fs w <;> simp [h]

theorem firstRec_phys (pStart w : Nat) : (insertRecOf 0 pStart 1 0).phys fs w =
    if w = 0 then some (pStart, 0) else none := by
  rw [ExtentRec.phys]
  by_cases hw : w = 0
  · subst hw
    rw [if_pos ⟨le_refl _, Nat.one_pos⟩]
    simp [insertRecOf, clustersToBlocks]
  · rw [if_neg hw, if_neg]
    rintro ⟨-, h⟩
    exact hw (by simpa [insertRecOf] using h)

/-- What a run leaves in the first block of the cluster. -/
inductive FirstBlock (fs : Filesys) (env : ConvertEnv) (di : Dinode) (pStart : Nat) :
    List UInt8 → Prop where
  | empty (h : di.iSize = 0) : FirstBlock fs env di pStart (Filesys.zeroBlock fs)
  | dir (h : di.iSize ≠ 0) (hdir : isDirMode di.iMode = true) (di' : Dinode) (c : Buf)
    (hc : expandLastDirent (staged env di) di.iSize (newDirSize fs env.dir) = some c) :
    FirstBlock fs env di pStart (bytesAt (dirImage fs env di' pStart c) 0 fs.fsBlocksize)
  | file (h : di.iSize ≠ 0) (hfile : isDirMode di.iMode = false) :
    FirstBlock fs env di pStart (bytesAt (staged env di) 0 fs.fsBlocksize)

theorem newExtentList_count (fs : Filesys) (di : Dinode) :
    0 < (newExtentList fs di).iList.lCount := by
  have := fs.fsBlocksize_ge
  show 0 < (List.replicate (extentRecsPerInode fs) ExtentRec.zero).length
  rw [length_replicate, extentRecsPerInode]
  omega

/-- What a run that succeeds leaves behind. -/
structure Outcome (fs : Filesys) (env : ConvertEnv) (di : Dinode) (pStart : Nat) (dev : Device) :
    Prop where
  clusters : env.newClusters = .ok (pStart, 1)
  dynFeatures : dev.inode.iDynFeatures = clearFlag di.iDynFeatures inlineDataFl
  map : ∀ w, treeMap fs dev.ebs dev.inode.iList w = if w = 0 then some (pStart, 0) else none
  size : dev.inode.iSize = if di.iSize ≠ 0 ∧ isDirMode di.iMode = true then fs.fsBlocksize
    else di.iSize
  first : FirstBlock fs env di pStart (dev.blocks pStart)
  rest : ∀ b, pStart < b → b < pStart + fs.bpc → dev.blocks b = Filesys.zeroBlock fs

theorem stageInlineData_inv (h : InlineOk fs s.root)
    (hrun : stageInlineData fs env s.root s = some (.ok b, t)) :
    t = s ∧ (s.root.iSize ≠ 0 → b = staged env s.root) := by
  unfold stageInlineData at hrun
  split at hrun
  · rename_i hz
    cases hrun
    exact ⟨rfl, fun hn => absurd hz hn⟩
  · have hle := h.size_le_block
    have hbits := fs.fsBlocksize_le
    have hread : inlineDataRead s.root fs.fsBlocksize 0 s =
        some (.ok (s.root.iSize, s.root.idData.take s.root.iSize), s) := by
      rw [inlineDataRead, h.inline, subW_eq (Nat.zero_le _) (by omega), Nat.sub_zero,
        min_eq_left hle]
      rfl
    rw [bind_ok hread] at hrun
    cases hrun
    exact ⟨rfl, fun _ => rfl⟩

theorem writeDirBlock_inv {block : Nat} (h : writeDirBlock fs env di block b s = some (.ok u, t)) :
    t = s.advance.commit
      (withBlock s.dev block (bytesAt (computeMetaEcc fs env b) 0 fs.fsBlocksize)) := by
  unfold writeDirBlock at h
  split at h
  · cases h
  · exact ioWriteBlock_inv h

/-- What writing the staged block of the inode `di` changes. -/
structure Unstaged (fs : Filesys) (env : ConvertEnv) (di : Dinode) (pStart : Nat) (s t : St) :
    Prop where
  size : t.root.iSize = if di.iSize ≠ 0 ∧ isDirMode di.iMode = true then fs.fsBlocksize
    else di.iSize
  list : t.root.iList = s.root.iList
  dynFeatures : t.root.iDynFeatures = s.root.iDynFeatures
  first : FirstBlock fs env di pStart (t.dev.blocks pStart)
  ebs : t.dev.ebs = s.dev.ebs
  others : ∀ b, b ≠ pStart → t.dev.blocks b = s.dev.blocks b

theorem writeStaged_inv (hsize : s.root.iSize = di.iSize) (hmode : s.root.iMode = di.iMode)
    (hb : di.iSize ≠ 0 → b = staged env di) (hzero : s.dev.blocks pStart = Filesys.zeroBlock fs)
    (h : writeStaged fs env pStart b s = some (.ok u, t)) : Unstaged fs env di pStart s t := by
  rw [writeStaged, bind_ok (get_run s)] at h
  rw [hsize, hmode] at h
  split at h
  · next hz =>
    cases h
    have hfirst : FirstBlock fs env di pStart (s.dev.blocks pStart) := by
      rw [hzero]
      exact .empty hz
    exact ⟨hsize.trans (if_neg fun h => h.1 hz).symm, rfl, rfl, hfirst, rfl, fun _ _ => rfl⟩
  · next hz =>
    obtain rfl := hb hz
    split at h
    · next hdir =>
      obtain ⟨c, s1, hc, h⟩ := bind_eq_ok h
      obtain ⟨rfl, hexp⟩ := ofOption_inv hc
      obtain ⟨_, s2, hmod, h⟩ := bind_eq_ok h
      cases hmod
      obtain rfl := writeDirBlock_inv h
      refine ⟨(if_pos ⟨hz, hdir⟩).symm, rfl, rfl, ?_, rfl, fun x hx => if_neg hx⟩
      simp only [St.commit, withBlock, if_true]
      exact .dir hz hdir _ c hexp
    · next hdir =>
      obtain rfl := ioWriteBlock_inv h
      refine ⟨hsize.trans (if_neg fun h => hdir h.2).symm, rfl, rfl, ?_, rfl, fun x hx => if_neg hx⟩
      simp only [St.commit, withBlock, if_true]
      exact .file hz (Bool.eq_false_iff.mpr hdir)

theorem fillCluster_outcome (hnew : env.newClusters = .ok (pStart, 1))
    (hroot : s.root = newExtentList fs di) (hb : di.iSize ≠ 0 → b = staged env di)
    (h : fillCluster fs env pStart 1 b s = some (.ok u, t)) : Outcome fs env di pStart t.dev := by
  obtain ⟨_, s1, hempty, h1⟩ := bind_eq_ok h
  obtain ⟨_, s2, hwrite, h2⟩ := bind_eq_ok h1
  obtain ⟨_, s3, hins, h3⟩ := bind_eq_ok h2
  obtain ⟨_, s4, hget, hlast⟩ := bind_eq_ok h3
  cases hget
  obtain ⟨hr1, hd1⟩ := emptyBlocks_inv _ _ hempty
  have hzero : ∀ x, pStart ≤ x → x < pStart + fs.bpc → s1.dev.blocks x = Filesys.zeroBlock fs := by
    intro x hx1 hx2
    rw [hd1]
    exact if_pos ⟨hx1, hx2⟩
  have hpos := fs.bpc_pos
  have hout : Unstaged fs env di pStart s1 s2 := by
    refine writeStaged_inv ?_ ?_ hb (hzero pStart (le_refl _) (by omega)) hwrite
    · rw [hr1, hroot]
      rfl
    · rw [hr1, hroot]
      rfl
  have hlist : s2.root.iList = (newExtentList fs di).iList := by rw [hout.list, hr1, hroot]
  have hcount : 0 < s2.root.iList.lCount := by
    rw [hlist]
    exact newExtentList_count fs di
  rw [treeInsertExtent_first (by rw [hlist]; rfl) (by rw [hlist]; rfl) hcount] at hins
  obtain rfl := writeInode_inv hins
  obtain rfl := writeInode_inv hlast
  refine ⟨hnew, hout.dynFeatures.trans (by rw [hr1, hroot]; rfl), fun w => ?_, hout.size,
    hout.first, fun x hx1 hx2 => (hout.others x (by omega)).trans (hzero x (by omega) hx2)⟩
  exact (treeMap_withFirst (by rw [hlist]; rfl) hcount _ Nat.one_ne_zero w).trans
    (firstRec_phys _ w)

theorem convertInlineDataToExtents_outcome (h : InlineOk fs s.root)
    (hrun : convertInlineDataToExtents fs env s = some (.ok u, t)) :
    ∃ pStart, Outcome fs env s.root pStart t.dev := by
  rw [convertInlineDataToExtents, bind_ok (get_run s)] at hrun
  obtain ⟨b, s1, hstage, hrun1⟩ := bind_eq_ok hrun
  obtain ⟨rfl, hb⟩ := stageInlineData_inv h hstage
  obtain ⟨_, s2, hmod, hrun2⟩ := bind_eq_ok hrun1
  cases hmod
  cases hnew : env.newClusters with
  | error e =>
    rw [hnew] at hrun2
    cases hrun2
  | ok r =>
    obtain ⟨pStart, n⟩ := r
    obtain rfl := env.one pStart n hnew
    rw [hnew] at hrun2
    exact ⟨pStart, fillCluster_outcome hnew rfl hb hrun2⟩

/-! ### Regular files -/

theorem flatMap_zero : ∀ n start,
    (∀ x, start ≤ x → x < start + n → dev.blocks x = Filesys.zeroBlock fs) →
    (List.range' start n).flatMap dev.blocks = zeroBlocks fs n
  | 0, _, _ => by simp [zeroBlocks]
  | n + 1, start, h => by
    rw [range'_succ, flatMap_cons, h start (le_refl _) (by omega),
      flatMap_zero n (start + 1) fun x h1 h2 => h x (by omega) (by omega), zeroBlocks, zeroBlocks,
      Filesys.zeroBlock, replicate_append_replicate]
    rw [Nat.succ_mul, Nat.add_comm]

theorem Outcome.clusterData (h : Outcome fs env di pStart dev) : clusterData fs dev pStart =
      dev.blocks pStart ++ List.replicate (fs.fsClustersize - fs.fsBlocksize) 0 := by
  obtain ⟨n, hn⟩ : ∃ n, fs.bpc = n + 1 := ⟨fs.bpc - 1, by have := fs.bpc_pos; omega⟩
  have hsize : fs.fsClustersize - fs.fsBlocksize = n * fs.fsBlocksize := by
    rw [fs.fsClustersize_eq, hn, Nat.mul_succ, Nat.add_sub_cancel, Nat.mul_comm]
  rw [Dir.clusterData, hn, range'_succ, flatMap_cons, hsize,
    flatMap_zero n (pStart + 1) fun x h1 h2 => h.rest x (by omega) (by omega)]
  rfl

theorem InlineOk.staged_bytes (h : InlineOk fs di) : bytesAt (staged env di) 0 fs.fsBlocksize =
      di.idData.take di.iSize ++ bytesAt env.heap di.iSize (fs.fsBlocksize - di.iSize) := by
  have hlen := h.take_length
  rw [bytesAt_split _ _ h.size_le_block, Nat.zero_add]
  congr 1
  · have : bytesAt (staged env di) (0 + 0) di.iSize =
        ((di.idData.take di.iSize).drop 0).take di.iSize :=
      bytesAt_writeBytes_inside (by omega)
    rw [this, drop_zero, take_take, Nat.min_self]
  · exact bytesAt_writeBytes_outside (.inr (by omega))

theorem bytesAt_eq_zeros {loc : Nat} :
    bytesAt b loc n = List.replicate n 0 ↔ ∀ x, loc ≤ x → x < loc + n → b x = 0 := by
  constructor
  · intro h x h1 h2
    have hx := bytesAt_getElem? b loc n (x - loc) (by omega)
    rw [h, getElem?_replicate, if_pos (by omega), Nat.add_sub_cancel' h1] at hx
    exact (Option.some.inj hx).symm
  · intro h
    rw [eq_replicate_iff]
    refine ⟨bytesAt_length _ _ _, fun y hy => ?_⟩
    obtain ⟨i, hi, rfl⟩ := mem_map.mp hy
    exact h (loc + i) (Nat.le_add_right _ _) (by rw [mem_range] at hi; omega)

/-- A file has been converted as it should exactly if it was empty or the buffer held zeros
    behind the data. -/
theorem Outcome.file_iff (hok : InlineOk fs di) (h : Outcome fs env di pStart dev)
    (hfile : isDirMode di.iMode = false) : Dir.clusterData fs dev pStart =
        di.idData.take di.iSize ++ List.replicate (fs.fsClustersize - di.iSize) 0 ↔
      di.iSize = 0 ∨ ∀ x, di.iSize ≤ x → x < fs.fsBlocksize → env.heap x = 0 := by
  have hle := hok.size_le_block
  have hclu : fs.fsBlocksize ≤ fs.fsClustersize := by
    rw [fs.fsClustersize_eq]
    exact Nat.le_mul_of_pos_right _ fs.bpc_pos
  have hsplit : List.replicate (fs.fsClustersize - di.iSize) (0 : UInt8) =
      List.replicate (fs.fsBlocksize - di.iSize) 0 ++
        List.replicate (fs.fsClustersize - fs.fsBlocksize) 0 := by
    rw [replicate_append_replicate]
    congr 1
    omega
  have hfirst := h.first
  rw [h.clusterData, hsplit]
  generalize dev.blocks pStart = data at hfirst ⊢
  cases hfirst with
  | empty hz => simp [hz, Filesys.zeroBlock]
  | dir _ hdir => rw [hfile] at hdir; cases hdir
  | file hne _ =>
    rw [hok.staged_bytes, append_assoc, append_cancel_left_eq,
      append_cancel_right_eq, bytesAt_eq_zeros, Nat.add_sub_cancel' hle]
    exact (or_iff_right hne).symm

theorem Outcome.dirBlock (hok : InlineOk fs di) (h : Outcome fs env di pStart dev)
    (hdir : isDirMode di.iMode = true) (hne : di.iSize ≠ 0) :
    DirBlockOk fs env.dir di (bufOf (dev.blocks pStart)) := by
  have hfirst := h.first
  generalize dev.blocks pStart = data at hfirst ⊢
  cases hfirst with
  | empty hz => exact absurd hz hne
  | file _ hfile => rw [hdir] at hfile; cases hfile
  | dir _ _ di' c hc =>
    obtain ⟨c', hc', hblock⟩ := hok.expandLastDirent hdir (Nat.pos_of_ne_zero hne) di' pStart
    obtain rfl : c' = c := Option.some.inj (hc'.symm.trans hc)
    exact hblock

/-! ### The conversion -/

/-- A conversion that succeeds has done what it should exactly if the inode is a directory
    that has entries, or a file that is empty or for which the allocated buffer happened to
    hold zeros behind the data. -/
theorem convertInlineDataToExtents_converted_iff (h : InlineOk fs s.root)
    (hrun : convertInlineDataToExtents fs env s = some (.ok (), t)) :
    Converted fs env s.root t.dev ↔ (isDirMode s.root.iMode = true ∧ s.root.iSize ≠ 0) ∨
      (isDirMode s.root.iMode = false ∧ (s.root.iSize = 0 ∨
        ∀ x, s.root.iSize ≤ x → x < fs.fsBlocksize → env.heap x = 0)) := by
  obtain ⟨pStart, hout⟩ := convertInlineDataToExtents_outcome h hrun
  have hflag : hasFlag t.dev.inode.iDynFeatures inlineDataFl = false := by
    rw [hout.dynFeatures, hasFlag, clearFlag, Nat.and_assoc]
    exact congrArg (· != 0) (Nat.and_zero _)
  have hsame : ∀ p, env.newClusters = .ok (p, 1) → p = pStart := by
    intro p hp
    rw [hout.clusters] at hp
    cases hp
    rfl
  cases hdir : isDirMode s.root.iMode with
  | true =>
    constructor
    · rintro ⟨-, p, hp, -, -, hd⟩
      refine .inl ⟨rfl, fun hz => ?_⟩
      -- without entries nothing is written, and the size stays
      have hsize := (hd hdir).2
      rw [hout.size, hz] at hsize
      exact absurd hsize.symm (Nat.ne_of_gt fs.fsBlocksize_pos)
    · rintro (⟨-, hne⟩ | ⟨hc, -⟩)
      · exact ⟨hflag, pStart, hout.clusters, hout.map, fun hc =>
          Bool.noConfusion (hdir.symm.trans hc),
          fun _ => ⟨hout.dirBlock h hdir hne, hout.size.trans (if_pos ⟨hne, hdir⟩)⟩⟩
      · cases hc
  | false =>
    have hiff := hout.file_iff h hdir
    constructor
    · rintro ⟨-, p, hp, -, hf, -⟩
      obtain rfl := hsame p hp
      exact .inr ⟨rfl, hiff.mp (hf hdir)⟩
    · rintro (⟨hc, -⟩ | ⟨-, hz⟩)
      · cases hc
      · exact ⟨hflag, pStart, hout.clusters, hout.map, fun _ => hiff.mpr hz,
          fun hc => Bool.noConfusion (hdir.symm.trans hc)⟩

def threeBytes : Dinode :=
  { smallInode 0 (listOf 0 0 []) with
    iMode := 0x81a4
    iDynFeatures := inlineDataFl
    iSize := 3
    idCount := 312
    idData := [97, 98, 99] ++ List.replicate 309 0 }

/-- A directory that holds `.` and `..` only. -/
def twoDots : Dinode :=
  { threeBytes with
    iMode := 0x41ed
    iSize := 32
    idData := [5, 0, 0, 0, 0, 0, 0, 0, 16, 0, 1, 2, 46, 0, 0, 0,
      5, 0, 0, 0, 0, 0, 0, 0, 16, 0, 2, 2, 46, 46, 0, 0] ++ List.replicate 280 0 }

/-- The allocator finds cluster 100, and the allocated buffer holds `0xff` everywhere. -/
def dirtyEnv : ConvertEnv where
  dir := ⟨true, false, true, fun _ => 0, fun _ => .error .io, fun _ => .ok ()⟩
  heap := fun _ => 255
  newClusters := .ok (800, 1)
  metaCheck := fun _ => List.replicate 8 0
  one := by
    intro p n h
    cases h
    rfl

theorem convertInlineDataToExtents_converted_dots : InlineOk smallFs twoDots ∧ ∃ t,
    convertInlineDataToExtents smallFs dirtyEnv (smallSt [] twoDots []) = some (.ok (), t) ∧
      Converted smallFs dirtyEnv twoDots t.dev := by
  have hok : InlineOk smallFs (smallSt [] twoDots []).root :=
    ⟨by decide, by decide, by decide +kernel, by decide, fun _ => by decide +kernel⟩
  obtain ⟨_, t, ht⟩ := Prog.returns_true (show Prog.returns
    (convertInlineDataToExtents smallFs dirtyEnv) (smallSt [] twoDots []) = true by decide +kernel)
  exact ⟨hok, t, ht, (convertInlineDataToExtents_converted_iff hok ht).mpr
    (.inl ⟨by decide, by decide⟩)⟩

/-- What the buffer held is in the cluster behind the three bytes of the file. -/
theorem convertInlineDataToExtents_dirty_buffer : InlineOk smallFs threeBytes ∧ ∃ t,
    convertInlineDataToExtents smallFs dirtyEnv (smallSt [] threeBytes []) = some (.ok (), t) ∧
      ¬ Converted smallFs dirtyEnv threeBytes t.dev := by
  have hok : InlineOk smallFs (smallSt [] threeBytes []).root :=
    ⟨by decide, by decide, by decide +kernel, by decide, fun h => absurd h (by decide)⟩
  obtain ⟨_, t, ht⟩ := Prog.returns_true (show Prog.returns
    (convertInlineDataToExtents smallFs dirtyEnv) (smallSt [] threeBytes []) = true by
      decide +kernel)
  refine ⟨hok, t, ht, ?_⟩
  rintro ⟨-, p, hp, -, hfile, -⟩
  obtain ⟨pStart, hout⟩ := convertInlineDataToExtents_outcome hok ht
  have hsame : (800, 1) = (p, 1) := Except.ok.inj hp
  have hsame' : (800, 1) = (pStart, 1) := Except.ok.inj hout.clusters
  cases hsame
  cases hsame'
  rcases (hout.file_iff hok (by decide)).mp (hfile (by decide)) with hz | hz
  · exact absurd hz (by decide)
  · exact absurd (hz 3 (by decide) (by decide)) (by decide)

end Ocfs2Tools.Dir
