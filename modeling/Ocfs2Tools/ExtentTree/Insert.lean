import Ocfs2Tools.ExtentTree.Grow
import Ocfs2Tools.ExtentTree.Rotate

/-!
# Inserting a record: `ocfs2_tree_insert_extent`

The insert works on a copy of all extent blocks, which it makes first, so that the tree
the inode on disk describes stays as it is until the new root is written. Then it finds
out how the record goes in: merged with a neighbour, behind the last record, or into a
leaf in which a rotation makes room.

`ins_tree_depth` is left out: nothing looks at it.
-/

namespace Ocfs2Tools

open Prog

/-! ### How a record goes in -/

/-- `enum ocfs2_contig_type`. -/
inductive ContigType where
  | none
  | left
  | right
  | leftRight
deriving DecidableEq, Repr

/-- `struct ocfs2_insert_type`; `appending` is `APPEND_TAIL`. -/
structure InsertType where
  split : SplitType
  appending : Bool
  contig : ContigType
  contigIndex : Nat
deriving DecidableEq, Repr

variable (fs : Filesys)

/-- `ocfs2_block_extent_contig`. -/
def blockExtentContig (ext : ExtentRec) (blkno : Nat) : Bool :=
  blkno == addW 64 ext.eBlkno (clustersToBlocks fs ext.eLeafClusters)

/-- `ocfs2_extents_adjacent`. -/
def extentsAdjacent (left right : ExtentRec) : Bool :=
  addW 32 left.eCpos left.eLeafClusters == right.eCpos

/-- `ocfs2_extent_rec_contig`. -/
def extentRecContig (ext insertRec : ExtentRec) : ContigType :=
  if ext.eFlags ≠ insertRec.eFlags then .none
  else if extentsAdjacent ext insertRec && blockExtentContig fs ext insertRec.eBlkno then .right
  else if extentsAdjacent insertRec ext && blockExtentContig fs insertRec ext.eBlkno then .left
  else .none

/-- `ocfs2_figure_contig_type`: the contiguousness and the index it was found at; without
    any the index stays `0`. -/
def figureContigType (el : ExtentList) (insertRec : ExtentRec) : ContigType × Nat :=
  match el.live.findIdx? fun r => decide (extentRecContig fs r insertRec ≠ .none) with
  | some i => (extentRecContig fs (el.recAt i) insertRec, i)
  | none => (.none, 0)

/-- `ocfs2_figure_appending_type`. -/
def figureAppendingType (el : ExtentList) (insertRec : ExtentRec) : Bool :=
  if el.lNextFreeRec = 0 then true
  else if isEmptyExtent (el.recAt 0) ∧ el.lNextFreeRec = 1 then true
  else
    let r := el.recAt (el.lNextFreeRec - 1)
    decide (addW 32 r.eCpos r.eLeafClusters ≤ insertRec.eCpos)

/-- `l_count - l_next_free_rec`. -/
def ExtentList.freeRecords (el : ExtentList) : Int := (el.lCount : Int) - el.lNextFreeRec

/-- `ocfs2_figure_insert_type`: the `last_eb` buffer, the free records of the rightmost leaf
    and how to insert. For a tree without blocks the buffer keeps what it held. -/
def figureInsertType (insertRec : ExtentRec) (lastEb : ExtentBlock) :
    M (ExtentBlock × Int × InsertType) := do
  let s ← Prog.get
  let rootEl := s.root.iList
  if rootEl.lTreeDepth = 0 then
    let (contig, i) := figureContigType fs rootEl insertRec
    pure (lastEb, rootEl.freeRecords, ⟨.none, figureAppendingType rootEl insertRec, contig, i⟩)
  else do
    let lastEb ← readExtentBlock fs s.root.iLastEbBlk
    newPath rootEl
    let path ← findPath fs rootEl insertRec.eCpos
    let el := pathLeafEl rootEl path
    check (decide (el.lTreeDepth = 0))
    let (contig, i) := figureContigType fs el insertRec
    -- merging with the first record of a leaf would change the path to its left
    let contig := if contig = .left ∧ i = 0 then .none else contig
    let appending := decide (path.getLast?.map ExtentBlock.hBlkno = some s.root.iLastEbBlk) &&
      figureAppendingType el insertRec
    pure (lastEb, lastEb.hList.freeRecords, ⟨.none, appending, contig, i⟩)

/-! ### Storing the record -/

/-- `ocfs2_subtract_from_rec`. -/
def subtractFromRec (split : SplitType) (r splitRec : ExtentRec) : ExtentRec :=
  if split = .left then
    { r with
      eCpos := addW 32 r.eCpos splitRec.eLeafClusters
      eBlkno := addW 64 r.eBlkno (clustersToBlocks fs splitRec.eLeafClusters)
      eLeafClusters := subW 16 r.eLeafClusters splitRec.eLeafClusters }
  else { r with eLeafClusters := subW 16 r.eLeafClusters splitRec.eLeafClusters }

/-- The merge of `ocfs2_insert_at_leaf`. -/
def mergeRec (contig : ContigType) (r insertRec : ExtentRec) : ExtentRec :=
  let r := if contig = .left then
      { r with eBlkno := insertRec.eBlkno, eCpos := insertRec.eCpos }
    else r
  { r with eLeafClusters := addW 16 r.eLeafClusters insertRec.eLeafClusters }

/-- `ocfs2_insert_at_leaf`. -/
def insertAtLeaf (insertRec : ExtentRec) (el : ExtentList) (insert : InsertType) :
    Option ExtentList :=
  if el.lTreeDepth ≠ 0 then none
  else if insert.split ≠ .none then
    match searchExtentList el insertRec.eCpos with
    | none => none
    | some i =>
      rotateLeaf (el.setRec i (subtractFromRec fs insert.split (el.recAt i) insertRec)) insertRec
  else if insert.contig ≠ .none then
    some (el.setRec insert.contigIndex
      (mergeRec insert.contig (el.recAt insert.contigIndex) insertRec))
  else if el.lNextFreeRec = 0 ∨ el.lNextFreeRec = 1 ∧ isEmptyExtent (el.recAt 0) then
    some { el.setRec 0 insertRec with lNextFreeRec := 1 }
  else if insert.appending then
    let last := el.recAt (el.lNextFreeRec - 1)
    if addW 32 last.eCpos last.eLeafClusters ≤ insertRec.eCpos then some (el.push insertRec)
    else none
  else rotateLeaf el insertRec

/-- The last record of a list of the right edge, made to end with `insertRec`. -/
def adjustRightmostRec (el : ExtentList) (insertRec : ExtentRec) : ExtentList :=
  let r := el.recAt (el.lNextFreeRec - 1)
  el.setRec (el.lNextFreeRec - 1)
    (r.setIntClusters (subW 32 (addW 32 insertRec.eCpos insertRec.eLeafClusters) r.eCpos))

/-- The loop of `ocfs2_adjust_rightmost_records` below the root: every list but the leaf. -/
def adjustRightmostLoop (insertRec : ExtentRec) : TreePath → Except Errcode TreePath
  | eb :: eb' :: path =>
    if eb.hList.lNextFreeRec = 0 then .error .corruptExtentBlock
    else
      match adjustRightmostLoop insertRec (eb' :: path) with
      | .error e => .error e
      | .ok path => .ok ({ eb with hList := adjustRightmostRec eb.hList insertRec } :: path)
  | path => .ok path

/-- `ocfs2_adjust_rightmost_records`. -/
def adjustRightmostRecords (path : TreePath) (insertRec : ExtentRec) : M TreePath := do
  let s ← Prog.get
  if path = [] then pure path
  else if s.root.iList.lNextFreeRec = 0 then fail .corruptExtentBlock
  else do
    setRootEl (adjustRightmostRec s.root.iList insertRec)
    ofExcept (adjustRightmostLoop insertRec path)

/-- Copy the blocks that both paths share from the right path to the left one. -/
def copyShared : TreePath → TreePath → TreePath
  | l :: left, r :: right => (if l.hBlkno = r.hBlkno then r else l) :: copyShared left right
  | left, _ => left

/-- `ocfs2_append_rec_to_path`: the path with its records adjusted, and the path to its
    left if the leaf was empty. -/
def appendRecToPath (insertRec : ExtentRec) (right : TreePath) :
    M (TreePath × Option TreePath) := do
  check (decide (right ≠ []))
  let s ← Prog.get
  let el := pathLeafEl s.root.iList right
  if el.lNextFreeRec = 0 ∨ el.lNextFreeRec = 1 ∧ isEmptyExtent (el.recAt 0) then do
    let leftCpos ← findCposForLeftLeaf s.root.iList right
    if leftCpos = 0 then do
      let right ← adjustRightmostRecords right insertRec
      pure (right, none)
    else do
      newPath s.root.iList
      let left ← findPath fs s.root.iList leftCpos
      let right ← adjustRightmostRecords right insertRec
      pure (right, some (copyShared left right))
  else do
    let right ← adjustRightmostRecords right insertRec
    pure (right, none)

/-- `ocfs2_split_record` on the leaves of two paths; `leftEl` is there if the left path is. -/
def splitRecord (leftEl : Option ExtentList) (rightEl : ExtentList)
    (splitRec : ExtentRec) (split : SplitType) : Option (Option ExtentList × ExtentList) :=
  let cpos := splitRec.eCpos
  match searchExtentList rightEl cpos with
  | some index =>
    match leftEl with
    | some leftEl =>
      if index ≠ 0 then do
        let rightEl ← rotateLeaf (rightEl.setRec index
          (subtractFromRec fs split (rightEl.recAt index) splitRec)) splitRec
        pure (some leftEl, rightEl)
      else if isEmptyExtent (rightEl.recAt 0) then none
      else if split = .left then do
        -- the rotation left an empty record in the left leaf
        let rightEl := rightEl.setRec 0 (subtractFromRec fs split (rightEl.recAt 0) splitRec)
        let leftEl ← rotateLeaf leftEl splitRec
        pure (some leftEl, rightEl)
      else do
        -- the record moves back to the left leaf
        let leftEl ← rotateLeaf leftEl (rightEl.recAt 0)
        let index ← searchExtentList leftEl cpos
        let leftEl := leftEl.setRec index (subtractFromRec fs split (leftEl.recAt index) splitRec)
        let rightEl ← rotateLeaf (rightEl.setRec 0 ExtentRec.zero) splitRec
        pure (some leftEl, rightEl)
    | none => do
      let rightEl ← rotateLeaf (rightEl.setRec index
        (subtractFromRec fs split (rightEl.recAt index) splitRec)) splitRec
      pure (none, rightEl)
  | none =>
    match leftEl with
    | none => none
    | some leftEl =>
      if isEmptyExtent (leftEl.recAt 0) = false then none
      else do
        let index ← searchExtentList leftEl cpos
        let leftEl ← rotateLeaf (leftEl.setRec index
          (subtractFromRec fs split (leftEl.recAt index) splitRec)) splitRec
        pure (some leftEl, rightEl)

def insertLeaves (leftEl : Option ExtentList) (rightEl : ExtentList)
    (insertRec : ExtentRec) (insert : InsertType) : Option (Option ExtentList × ExtentList) :=
  if insert.split ≠ .none then splitRecord fs leftEl rightEl insertRec insert.split
  else (insertAtLeaf fs insertRec rightEl insert).map fun rightEl => (leftEl, rightEl)

/-- `ocfs2_insert_path`. -/
def insertPath (left : Option TreePath) (right : TreePath)
    (insertRec : ExtentRec) (insert : InsertType) : M Unit := do
  let s ← Prog.get
  let root := s.root.iList
  let (leftEl, rightEl) ← ofOption (insertLeaves fs (left.map (pathLeafEl root))
    (pathLeafEl root right) insertRec insert)
  match left, leftEl with
  | some left, some leftEl => do
    let subtreeIndex ← ofOption (findSubtreeRoot left right)
    let _ ← completeAndSync fs ⟨root, setLeafEl left leftEl, setLeafEl right rightEl⟩ subtreeIndex
    pure ()
  | _, _ => syncPathToDisk fs none (some (setLeafEl right rightEl)) 0

/-- `ocfs2_et_update_clusters`. -/
def updateClusters (clusters : Nat) : M Unit :=
  Prog.modify fun s =>
    { s with root := { s.root with iClusters := addW 32 s.root.iClusters clusters } }

/-- The two paths `ocfs2_insert_path` gets. -/
def insertPaths (insertRec : ExtentRec) (type : InsertType) :
    M (TreePath × Option TreePath) := do
  let s ← Prog.get
  newPath s.root.iList
  if type.appending = false ∧ type.contig = .none then do
    let right ← findPath fs s.root.iList uint32Max
    rotateTreeRight fs type.split insertRec.eCpos right
  else do
    let right ← findPath fs s.root.iList insertRec.eCpos
    if type.appending ∧ type.contig ≠ .left then appendRecToPath fs insertRec right
    else pure (right, none)

/-- `ocfs2_do_insert_extent`. -/
def doInsertExtent (insertRec : ExtentRec) (type : InsertType) : M Unit := do
  let s ← Prog.get
  if s.root.iList.lTreeDepth = 0 then do
    let el ← ofOption (insertAtLeaf fs insertRec s.root.iList type)
    setRootEl el
  else do
    let (right, left) ← insertPaths fs insertRec type
    insertPath fs left right insertRec type
  if type.split = .none then updateClusters insertRec.eLeafClusters else pure ()

/-! ### The copy of the extent blocks -/

/-- The list of a copy: `dupList` copies what hangs below it. -/
def duplicateKids (dupList : ExtentList → Nat → M (ExtentList × Nat)) (el : ExtentList)
    (nextLeafBlk : Nat) : M (ExtentList × Nat) :=
  if 0 < el.lTreeDepth then dupList el nextLeafBlk else pure (el, nextLeafBlk)

/-- The copy of `eb` with the list `el`; the copy of a leaf goes before the last one. -/
def copyOf (eb : ExtentBlock) (newBlkno nextLeafBlk : Nat) (el : ExtentList) : ExtentBlock :=
  { eb with
    hBlkno := newBlkno
    hNextLeafBlk := if eb.hList.lTreeDepth = 0 then nextLeafBlk else eb.hNextLeafBlk
    hList := el }

/-- Set `last_eb_blk` if it is the block just copied. -/
def moveLastEbBlk (blkno newBlkno : Nat) : M Unit :=
  Prog.modify fun s => { s with
    root := { s.root with
      iLastEbBlk := if s.root.iLastEbBlk = blkno then newBlkno else s.root.iLastEbBlk } }

/-- One turn of the loop of `duplicate_extent_block`: copy the block that `r` leads to. The
    number of the copy and the new `next_leaf_blk` are returned. -/
def duplicateBlock (dupList : ExtentList → Nat → M (ExtentList × Nat))
    (r : ExtentRec) (nextLeafBlk : Nat) : M (Nat × Nat) := do
  let eb ← readExtentBlock fs r.eBlkno
  let (el, nextLeafBlk) ← duplicateKids dupList eb.hList nextLeafBlk
  let (newBlkno, ret) ← newExtentBlock fs
  ofExcept ret
  writeExtentBlock fs newBlkno (copyOf eb newBlkno nextLeafBlk el)
  moveLastEbBlk r.eBlkno newBlkno
  pure (newBlkno, if eb.hList.lTreeDepth = 0 then newBlkno else nextLeafBlk)

/-- The loop of `duplicate_extent_block`, from the last record to the first: the records
    of the copy as far as they got, `next_leaf_blk`, and how the loop ended. -/
def duplicateRecs (fs : Filesys) (dupList : ExtentList → Nat → M (ExtentList × Nat))
    (treeDepth : Nat) : List ExtentRec → Nat → M (List ExtentRec × Nat × Except Errcode Unit)
  | [], nextLeafBlk => pure ([], nextLeafBlk, .ok ())
  | r :: rs, nextLeafBlk => do
    let (news, nextLeafBlk, ret) ← duplicateRecs fs dupList treeDepth rs nextLeafBlk
    match ret with
    | .error e => pure (ExtentRec.zero :: news, nextLeafBlk, .error e)
    | .ok _ =>
      if recClusters treeDepth r = 0 then pure (ExtentRec.zero :: news, nextLeafBlk, .ok ())
      else
        match ← attempt (duplicateBlock fs dupList r nextLeafBlk) with
        | .error e => pure (ExtentRec.zero :: news, nextLeafBlk, .error e)
        | .ok (newBlkno, nextLeafBlk) =>
          pure ({ r with eBlkno := newBlkno } :: news, nextLeafBlk, .ok ())

/-- `duplicate_extent_block` on a list of depth at most the first argument. -/
def duplicateExtentBlock (fs : Filesys) : Nat → ExtentList → Nat → M (ExtentList × Nat)
  | 0, _, _ => abort
  | n + 1, oldEl, nextLeafBlk => do
    check (decide (0 < oldEl.lTreeDepth))
    if oldEl.lNextFreeRec = 0 then fail .corruptExtentBlock
    else do
      let (news, nextLeafBlk, ret) ←
        duplicateRecs fs (duplicateExtentBlock fs n) oldEl.lTreeDepth oldEl.live nextLeafBlk
      match ret with
      | .error e => do
        deleteBranch fs (news.map ExtentRec.eBlkno)
        fail e
      | .ok _ => pure ({ oldEl with
          lRecs := news ++ List.replicate (oldEl.lCount - oldEl.lNextFreeRec) ExtentRec.zero },
          nextLeafBlk)

/-- `duplicate_extent_block_et`. -/
def duplicateExtentBlockEt : M Unit := do
  let s ← Prog.get
  let oldEl := s.root.iList
  check (decide (0 < oldEl.lTreeDepth))
  let (el, _) ← duplicateExtentBlock fs oldEl.lTreeDepth oldEl 0
  setRootEl el

/-- The loop of `free_duplicated_extent_block`; errors are ignored. -/
def freeDuplicatedRecs (fs : Filesys) (freeList : ExtentList → M Unit) (treeDepth : Nat) :
    List ExtentRec → M Unit
  | [] => pure ()
  | r :: rs => do
    if recClusters treeDepth r = 0 then freeDuplicatedRecs fs freeList treeDepth rs
    else do
      match ← attempt (readExtentBlock fs r.eBlkno) with
      | .error _ => freeDuplicatedRecs fs freeList treeDepth rs
      | .ok eb => do
        if 0 < eb.hList.lTreeDepth then freeList eb.hList else pure ()
        let _ ← attempt (deleteExtentBlock fs r.eBlkno)
        freeDuplicatedRecs fs freeList treeDepth rs

/-- `free_duplicated_extent_block` on a list of depth at most the first argument. -/
def freeDuplicatedExtentBlock (fs : Filesys) : Nat → ExtentList → M Unit
  | 0, _ => abort
  | n + 1, el => do
    check (decide (0 < el.lTreeDepth))
    freeDuplicatedRecs fs (freeDuplicatedExtentBlock fs n) el.lTreeDepth el.live

/-! ### The whole function -/

/-- Make the copy, if there are extent blocks: the old inode buffer if that succeeded. If
    it did not, the buffer is put back and the function goes on without a copy. -/
def backupRoot : M (Option Dinode) := do
  let s ← Prog.get
  if s.root.iList.lTreeDepth = 0 then pure none
  else
    match ← attempt (duplicateExtentBlockEt fs) with
    | .ok _ => pure (some s.root)
    | .error _ => do
      Prog.modify fun t => { t with root := s.root }
      pure none

def freeBackup (backup : Option Dinode) (ret : Except Errcode Unit) : M Unit :=
  match backup with
  | none => pure ()
  | some old => do
    let s ← Prog.get
    let el := match ret with
      | .ok _ => old.iList
      | .error _ => s.root.iList
    freeDuplicatedExtentBlock fs el.lTreeDepth el

/-- The insert itself, on whatever blocks the root buffer leads to. -/
def insertRecord (insertRec : ExtentRec) : M Unit := do
  let (lastEb, freeRecords, insert) ← figureInsertType fs insertRec (initEb fs 0)
  if insert.contig = .none ∧ freeRecords = 0 then do
    let _ ← growTree fs lastEb
    doInsertExtent fs insertRec insert
  else doInsertExtent fs insertRec insert

/-- The record `ocfs2_tree_insert_extent` makes of its arguments. -/
def insertRecOf (cpos cBlkno clusters flag : Nat) : ExtentRec :=
  ⟨cpos, clusters % 65536, 0, flag % 256, cBlkno⟩

/-- `ocfs2_tree_insert_extent` for an inode, whose buffer is the root buffer. -/
def treeInsertExtent (cpos cBlkno clusters flag : Nat) : M Unit := do
  let backup ← backupRoot fs
  let ret ← attempt (insertRecord fs (insertRecOf cpos cBlkno clusters flag))
  freeBackup fs backup ret
  ofExcept ret
  let s ← Prog.get
  writeInode fs s.root

end Ocfs2Tools
