import Ocfs2Tools.ExtentTree.HashTree

/-!
# The hash index of a directory

The index of a directory is a tree of extents over hashes: the extent record at `e_cpos`
leads to clusters of index leaves, and a name belongs into the last cluster at or below the
major half of its hash; the minor half picks the block in the cluster. A small index sits
in its root block instead.
-/

namespace Ocfs2Tools.DxDir

open List Prog

/-! ### The data -/

/-- `struct ocfs2_dx_hinfo`. -/
structure Hinfo where
  majorHash : Nat
  minorHash : Nat
deriving DecidableEq, Repr

/-- `struct ocfs2_dx_entry`. -/
structure DxEntry where
  dxHash : Hinfo
  dxDirentBlk : Nat
deriving DecidableEq, Repr

/-- `dx_major_hash`. -/
def DxEntry.major (e : DxEntry) : Nat := e.dxHash.majorHash

/-- `dx_minor_hash`. -/
def DxEntry.minor (e : DxEntry) : Nat := e.dxHash.minorHash

/-- `struct ocfs2_dx_entry_list`, with the `de_num_used` entries in use. -/
structure EntryList where
  deCount : Nat
  deEntries : List DxEntry
deriving DecidableEq, Repr

def EntryList.deNumUsed (l : EntryList) : Nat := l.deEntries.length

/-- `struct ocfs2_dx_leaf`. -/
structure DxLeaf where
  dlBlkno : Nat
  dlList : EntryList
deriving DecidableEq, Repr

/-- `struct ocfs2_dx_root_block`, without the extent tree: `inline` is `OCFS2_DX_FLAG_INLINE`. -/
structure DxRoot where
  inline : Bool
  drNumEntries : Nat
  drEntries : EntryList
deriving DecidableEq, Repr

/-- An index. The extent tree code is given the root block by its number, its list, its number of
    clusters and its last leaf; `st.root` has these, as `dr_blkno`, `dr_list`, `dr_clusters` and
    `dr_last_eb_blk`. A block that is no index leaf is `none`. -/
structure Index where
  root : DxRoot
  leaves : Nat → Option DxLeaf
  st : St

def Index.drList (ix : Index) : ExtentList := ix.st.root.iList
def Index.drClusters (ix : Index) : Nat := ix.st.root.iClusters

/-- The leaf records of the tree from left to right. -/
def Index.recs (ix : Index) : List ExtentRec := diskRecs ix.st.dev.ebs ix.drList

/-- `ocfs2_dx_entries_per_leaf`: the entries start 48 bytes into the block. -/
def dxEntriesPerLeaf (fs : Filesys) : Nat := (fs.fsBlocksize - 48) / 16

/-- `ocfs2_dx_entries_per_root`: the entries start 200 bytes into the block. -/
def dxEntriesPerRoot (fs : Filesys) : Nat := (fs.fsBlocksize - 200) / 16

/-! ### Looking a hash up -/

abbrev Dx (α : Type) : Type := Prog Index Errcode α

/-- What the extent tree code does to the tree. -/
def onTree {α : Type} (m : M α) : Dx α := fun ix =>
  match m ix.st with
  | none => none
  | some (r, s) => some (r, { ix with st := s })

/-- `ocfs2_read_dx_leaf`. -/
def readDxLeaf (blkno : Nat) : Dx DxLeaf := fun ix =>
  match ix.leaves blkno with
  | none => some (.error .dirCorrupted, ix)
  | some leaf => some (.ok leaf, ix)

/-- `__ocfs2_dx_dir_hash_idx`. -/
def dxDirHashIdx (fs : Filesys) (minorHash : Nat) : Nat := minorHash &&& (fs.bpc - 1)

/-- The first part of `ocfs2_dx_dir_lookup_rec`: the list to look in. -/
def lookupList (fs : Filesys) (majorHash : Nat) : Dx ExtentList := do
  let ix ← Prog.get
  if ix.drList.lTreeDepth = 0 then pure ix.drList
  else do
    let eb ← onTree (treeFindLeaf fs ix.drList majorHash)
    if eb.hList.lTreeDepth = 0 then pure eb.hList else fail .corruptExtentBlock

/-- `ocfs2_dx_dir_lookup_rec`: the loop runs from the last record down. -/
def dxDirLookupRec (fs : Filesys) (majorHash : Nat) : Dx ExtentRec := do
  let el ← lookupList fs majorHash
  match floorRec majorHash el.live with
  | none => fail .corruptExtentBlock
  | some r => pure r

/-- The cluster of a record that a hash selects, as an offset in the record. The end of the
    record is computed on 32 bits. -/
def clusterIn (r : ExtentRec) (nameHash : Nat) : Nat :=
  if addW 32 r.eCpos r.eLeafClusters ≤ nameHash then r.eLeafClusters - 1
  else nameHash - r.eCpos

/-- `ocfs2_dx_dir_lookup`: where the cluster starts in the hashes, and the block of the leaf. -/
def dxDirLookup (fs : Filesys) (h : Hinfo) : Dx (Nat × Nat) := do
  let r ← dxDirLookupRec fs h.majorHash
  let i := clusterIn r h.majorHash
  pure (r.eCpos + i, r.eBlkno + clustersToBlocks fs i + dxDirHashIdx fs h.minorHash)

variable {fs : Filesys} {recs : List ExtentRec} {ix : Index}

theorem dxDirHashIdx_lt (fs : Filesys) (m : Nat) : dxDirHashIdx fs m < fs.bpc := by
  have hpos := fs.bpc_pos
  have hle : dxDirHashIdx fs m ≤ fs.bpc - 1 := Nat.and_le_right
  omega

theorem readDxLeaf_run {blkno : Nat} {leaf : DxLeaf} (h : ix.leaves blkno = some leaf) :
    readDxLeaf blkno ix = some (.ok leaf, ix) := by
  simp only [readDxLeaf, h]

/-! ### Clusters and entries -/

/-- The clusters of an index tree: where each one starts in the hashes, and its first block. -/
def clusters (fs : Filesys) (recs : List ExtentRec) : List (Nat × Nat) :=
  recs.flatMap fun r => (List.range r.eLeafClusters).map fun i =>
    (r.eCpos + i, r.eBlkno + clustersToBlocks fs i)

def Index.entriesAt (ix : Index) (blkno : Nat) : List DxEntry :=
  match ix.leaves blkno with
  | none => []
  | some leaf => leaf.dlList.deEntries

/-- The entries in the leaves of the cluster at block `b`. -/
def Index.entriesIn (fs : Filesys) (ix : Index) (b : Nat) : List DxEntry :=
  (List.range fs.bpc).flatMap fun i => ix.entriesAt (b + i)

def Index.entries (fs : Filesys) (ix : Index) : List DxEntry :=
  if ix.root.inline then ix.root.drEntries.deEntries
  else (clusters fs ix.recs).flatMap fun c => ix.entriesIn fs c.2

theorem mem_clusters {c : Nat × Nat} : c ∈ clusters fs recs ↔ ∃ r ∈ recs, ∃ i,
    i < r.eLeafClusters ∧ c = (r.eCpos + i, r.eBlkno + clustersToBlocks fs i) := by
  simp only [clusters, mem_flatMap, mem_map, mem_range, eq_comm (a := c)]

theorem mem_entries {e : DxEntry} (htree : ix.root.inline = false) : e ∈ ix.entries fs ↔
    ∃ c ∈ clusters fs ix.recs, ∃ i < fs.bpc, e ∈ ix.entriesAt (c.2 + i) := by
  simp only [Index.entries, htree, Bool.false_eq_true, if_false, Index.entriesIn, mem_flatMap,
    mem_range]

end Ocfs2Tools.DxDir
