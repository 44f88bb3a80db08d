import Ocfs2Tools.Dir.IndexShape
import Ocfs2Tools.ExtentTree.InsertRoot
import Ocfs2Tools.Lib.HeapSort

/-!
# Splitting a cluster of index leaves

When the leaf a name belongs into is full, `ocfs2_dx_dir_rebalance` sorts its entries, picks
a hash to split at, and moves the entries of all leaves of the cluster from that hash on to a
new cluster. The cluster allocator is a parameter.
-/

namespace Ocfs2Tools.DxDir

open Prog

/-! ### The split hash -/

/-- `dx_leaf_sort_cmp` is negative. -/
def sortLt (a b : DxEntry) : Prop :=
  a.major < b.major ∨ (a.major = b.major ∧ a.minor < b.minor)

instance : DecidableRel sortLt := fun _ _ => inferInstanceAs (Decidable (_ ∨ _))

instance : Inhabited DxEntry := ⟨⟨⟨0, 0⟩, 0⟩⟩

/-- `ocfs2_sort` on the entries of a leaf. -/
def sortEntries (es : List DxEntry) : List DxEntry := HeapSort.heapSort sortLt es

/-- `ocfs2_dx_leaf_same_major`. -/
def dxLeafSameMajor : List DxEntry → Bool
  | e :: e' :: rest => e.major == e'.major && dxLeafSameMajor (e' :: rest)
  | _ => true

/-- `ocfs2_dx_dir_find_leaf_split` on sorted entries; `none` is the failed assertion. -/
def dxDirFindLeafSplit (es : List DxEntry) (leafCpos insertHash : Nat) :
    Option (Except Errcode Nat) :=
  if dxLeafSameMajor es then
    let val := (es.getD 0 default).major
    if val = insertHash then some (.error .dirNoSpace)
    else if val = leafCpos then some (.ok (addW 32 leafCpos 1))
    else if insertHash < val then some (.ok val)
    else some (.ok insertHash)
  else
    match (es.drop (es.length / 2)).find? fun e => leafCpos < e.major with
    | none => none
    | some e => some (.ok e.major)

/-! ### The split -/

/-- The first block of the cluster that `ocfs2_new_clusters` finds. -/
structure Env where
  newCluster : Index → Option Nat

/-- `ocfs2_write_dx_leaf`. -/
def writeDxLeaf (leaves : Nat → Option DxLeaf) (blkno : Nat) (leaf : DxLeaf) :
    Nat → Option DxLeaf :=
  fun b => if b = blkno then some leaf else leaves b

/-- `ocfs2_block_to_cluster_start`. -/
def blockToClusterStart (fs : Filesys) (blkno : Nat) : Nat :=
  clustersToBlocks fs (blocksToClusters fs blkno)

/-- `ocfs2_read_dx_leaves` from block `start` on. -/
def readDxLeaves (start : Nat) : Nat → Dx (List DxLeaf)
  | 0 => pure []
  | n + 1 => do
    let rest ← readDxLeaves start n
    let leaf ← readDxLeaf (start + n)
    pure (rest ++ [leaf])

def emptyLeaf (fs : Filesys) (blkno : Nat) : DxLeaf := ⟨blkno, ⟨dxEntriesPerLeaf fs, []⟩⟩

/-- `ocfs2_dx_dir_format_cluster`: `n` empty leaves from block `start` on. -/
def dxDirFormatCluster (fs : Filesys) : Nat → Nat → (Nat → Option DxLeaf) → Nat → Option DxLeaf
  | _, 0, leaves => leaves
  | start, n + 1, leaves =>
    dxDirFormatCluster fs (start + 1) n (writeDxLeaf leaves start (emptyLeaf fs start))

/-- The leaves that `ocfs2_dx_dir_format_cluster` leaves in memory. -/
def formattedLeaves (fs : Filesys) (start n : Nat) : List DxLeaf :=
  (List.range n).map fun i => emptyLeaf fs (start + i)

def keepBelow (splitHash : Nat) (leaf : DxLeaf) : DxLeaf :=
  let stay := leaf.dlList.deEntries.filter fun e => e.major < splitHash
  { leaf with dlList := { leaf.dlList with deEntries := stay } }

/-- The entries of a leaf from the split hash on, behind those of a new leaf. -/
def moveFrom (splitHash : Nat) (new leaf : DxLeaf) : DxLeaf :=
  let go := leaf.dlList.deEntries.filter fun e => splitHash ≤ e.major
  { new with dlList := { new.dlList with deEntries := new.dlList.deEntries ++ go } }

/-- `ocfs2_dx_dir_transfer_leaf`, for the leaves from index `i` on. -/
def dxDirTransferLeaf (splitHash origBlk newBlk : Nat) :
    Nat → List DxLeaf → List DxLeaf → (Nat → Option DxLeaf) → Nat → Option DxLeaf
  | i, o :: os, n :: ns, leaves =>
    dxDirTransferLeaf splitHash origBlk newBlk (i + 1) os ns
      (writeDxLeaf (writeDxLeaf leaves (origBlk + i) (keepBelow splitHash o)) (newBlk + i)
        (moveFrom splitHash n o))
  | _, _, _, leaves => leaves

/-- `ocfs2_tree_insert_extent` on the tree of the index, one cluster long. -/
def insertCluster (fs : Filesys) (cpos blkno : Nat) : Dx Unit :=
  onTree (treeInsertExtent fs cpos blkno 1 0)

/-- `ocfs2_dx_dir_new_cluster`. -/
def dxDirNewCluster (env : Env) (fs : Filesys) (cpos : Nat) : Dx Nat := do
  let ix ← Prog.get
  match env.newCluster ix with
  | none => fail .noSpace
  | some start => do
    Prog.modify fun ix => { ix with leaves := dxDirFormatCluster fs start fs.bpc ix.leaves }
    insertCluster fs cpos start
    pure start

/-- `ocfs2_dx_dir_rebalance`. -/
def dxDirRebalance (env : Env) (fs : Filesys) (dxLeaf : DxLeaf) (h : Hinfo)
    (leafCpos leafBlkno : Nat) : Dx Unit := do
  let ix ← Prog.get
  if ix.drClusters = uint32Max then fail .dirNoSpace
  else if dxLeaf.dlList.deNumUsed < dxLeaf.dlList.deCount then fail .dxBalanceEmptyLeaf
  else
    match dxDirFindLeafSplit (sortEntries dxLeaf.dlList.deEntries) leafCpos h.majorHash with
    | none => abort
    | some (.error e) => fail e
    | some (.ok splitHash) => do
      let origStart := blockToClusterStart fs leafBlkno
      let orig ← readDxLeaves origStart fs.bpc
      let newStart ← dxDirNewCluster env fs splitHash
      Prog.modify fun ix =>
        { ix with
          leaves := dxDirTransferLeaf splitHash origStart newStart 0 orig
            (formattedLeaves fs newStart fs.bpc) ix.leaves }

/-- The start of `ocfs2_find_dir_space_dx`, from `restart_search` on: where the cluster of
    the hash starts, the block of the leaf, and the leaf. -/
def restartSearch (fs : Filesys) (h : Hinfo) : Dx (Nat × Nat × DxLeaf) := do
  let x ← dxDirLookup fs h
  let leaf ← readDxLeaf x.2
  pure (x.1, x.2, leaf)

def EntryList.full (l : EntryList) : Bool := decide (l.deCount ≤ l.deNumUsed)

/-- `ocfs2_find_dir_space_dx`: the block of a leaf with room. The search is restarted at
    most once, since `rebalanced` is then set. -/
def findDirSpaceDx (env : Env) (fs : Filesys) (h : Hinfo) : Dx Nat := do
  let x ← restartSearch fs h
  if x.2.2.dlList.full then do
    dxDirRebalance env fs x.2.2 h x.1 x.2.1
    let y ← restartSearch fs h
    if y.2.2.dlList.full then fail .dirNoSpace else pure y.2.1
  else pure x.2.1

end Ocfs2Tools.DxDir
