import Ocfs2Tools.Dir.Rebalance

/-!
# Inserting into the index

`ocfs2_dx_dir_insert` puts an entry into the root block while there is room. A full root is
expanded to a cluster of leaves, and from then on an entry goes to the leaf that its hash
selects, after a split if this leaf is full.
-/

namespace Ocfs2Tools.DxDir

/-- `ocfs2_dx_entry_list_insert`. -/
def dxEntryListInsert (l : EntryList) (h : Hinfo) (direntBlk : Nat) : EntryList :=
  { l with deEntries := l.deEntries ++ [⟨h, direntBlk⟩] }

/-- `ocfs2_dx_dir_leaf_insert_tail`. -/
def dxDirLeafInsertTail (leaf : DxLeaf) (e : DxEntry) : DxLeaf :=
  { leaf with dlList := { leaf.dlList with deEntries := leaf.dlList.deEntries ++ [e] } }

/-! ### Expanding the root -/

/-- The loop of `ocfs2_expand_inline_dx_root` over the entries of the root; the leaves are
    those of the new cluster, in memory. -/
def transferEntries (fs : Filesys) : List DxEntry → List DxLeaf → List DxLeaf
  | [], dxLeaves => dxLeaves
  | e :: es, dxLeaves =>
    transferEntries fs es
      (dxLeaves.modify (dxDirHashIdx fs e.minor) fun leaf => dxDirLeafInsertTail leaf e)

/-- Its loop that writes the leaves. -/
def writeDxLeaves : List DxLeaf → (Nat → Option DxLeaf) → Nat → Option DxLeaf
  | [], leaves => leaves
  | leaf :: rest, leaves => writeDxLeaves rest (writeDxLeaf leaves leaf.dlBlkno leaf)

/-- `ocfs2_extent_recs_per_dx_root`: the records start 208 bytes into the block. -/
def extentRecsPerDxRoot (fs : Filesys) : Nat := (fs.fsBlocksize - 208) / 16

/-- The root without `OCFS2_DX_FLAG_INLINE`, and all from the entries on zeroed. -/
def Index.cleared (fs : Filesys) (ix : Index) : Index :=
  { ix with
    root := { ix.root with inline := false, drEntries := ⟨0, []⟩ }
    st := { ix.st with root := { ix.st.root with
      iList := ⟨0, 0, List.replicate (extentRecsPerDxRoot fs) ExtentRec.zero⟩ } } }

/-- `ocfs2_expand_inline_dx_root`. -/
def expandInlineDxRoot (env : Env) (fs : Filesys) : Dx Unit := do
  let ix ← Prog.get
  match env.newCluster ix with
  | none => Prog.fail .noSpace
  | some start => do
    let dxLeaves := transferEntries fs ix.root.drEntries.deEntries (formattedLeaves fs start fs.bpc)
    Prog.modify fun ix => { ix with leaves := dxDirFormatCluster fs start fs.bpc ix.leaves }
    Prog.modify fun ix => { ix with leaves := writeDxLeaves dxLeaves ix.leaves }
    Prog.modify (Index.cleared fs)
    insertCluster fs 0 start

/-! ### Inserting an entry -/

/-- The end of `ocfs2_dx_dir_insert`: `dr_num_entries` has 32 bits. -/
def countEntry : Dx Unit :=
  Prog.modify fun ix =>
    { ix with root := { ix.root with drNumEntries := addW 32 ix.root.drNumEntries 1 } }

/-- `insert_into_entries` with the entries of the root. -/
def insertIntoRoot (h : Hinfo) (blocknr : Nat) : Dx Unit := do
  Prog.modify fun ix =>
    let entries := dxEntryListInsert ix.root.drEntries h blocknr
    { ix with root := { ix.root with drEntries := entries } }
  countEntry

/-- `insert_into_entries` with the entries of a leaf. -/
def insertIntoLeaf (leaf : DxLeaf) (h : Hinfo) (blocknr : Nat) : Dx Unit := do
  Prog.modify fun ix =>
    let leaf' := { leaf with dlList := dxEntryListInsert leaf.dlList h blocknr }
    { ix with leaves := writeDxLeaf ix.leaves leaf.dlBlkno leaf' }
  countEntry

/-- The part of `ocfs2_dx_dir_insert` for an index with leaves. -/
def insertIntoTree (env : Env) (fs : Filesys) (h : Hinfo) (blocknr : Nat) : Dx Unit := do
  let blkno ← findDirSpaceDx env fs h
  let leaf ← readDxLeaf blkno
  insertIntoLeaf leaf h blocknr

/-- `ocfs2_dx_dir_insert`, with the hash of the name. -/
def dxDirInsert (env : Env) (fs : Filesys) (h : Hinfo) (blocknr : Nat) : Dx Unit := do
  let ix ← Prog.get
  if ix.root.inline then
    if ix.root.drEntries.full then do
      expandInlineDxRoot env fs
      insertIntoTree env fs h blocknr
    else insertIntoRoot h blocknr
  else insertIntoTree env fs h blocknr

/-- The inline root without entries that `ocfs2_dx_dir_build` starts from. -/
def emptyRoot (fs : Filesys) : DxRoot := ⟨true, 0, ⟨dxEntriesPerRoot fs, []⟩⟩

end Ocfs2Tools.DxDir
