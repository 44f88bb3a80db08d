import Ocfs2Tools.ExtentTree.Path

/-!
# Moving records between leaves: rotations to the right

The functions of `extent_tree.c` that make room in a leaf. A path is the list of the
extent blocks from below the root to the leaf, as the buffers of `struct ocfs2_path` hold
them; the root itself is the inode buffer, which all paths share. Functions that only
edit buffers are pure, and `none` is a failed `assert`.
-/

namespace Ocfs2Tools

open Prog

/-- Run a function that may fail an `assert`. -/
def ofOption {σ ε α : Type} : Option α → Prog σ ε α
  | some a => pure a
  | none => abort

/-! ### One list -/

variable (el : ExtentList)

/-- `ocfs2_shift_records_right`. -/
def shiftRecordsRight : Option ExtentList :=
  if 0 < el.lNextFreeRec ∧ el.lNextFreeRec < el.lCount then
    some { el with
      lRecs := el.lRecs.take 1 ++ el.live ++ el.lRecs.drop (el.lNextFreeRec + 1) }
  else none

/-- The list without its empty first record, for `ocfs2_rotate_leaf`: the records move
    down by one, the last one stays behind as well. -/
def dropFirst : ExtentList :=
  { el with
    lNextFreeRec := el.lNextFreeRec - 1
    lRecs := el.live.drop 1 ++ el.lRecs.drop (el.lNextFreeRec - 1) }

/-- Store `r` before the first record that starts behind it. -/
def insertSorted (r : ExtentRec) : ExtentList :=
  let i := el.live.findIdx fun x => decide (r.eCpos < x.eCpos)
  { el with
    lNextFreeRec := el.lNextFreeRec + 1
    lRecs := el.live.take i ++ r :: el.live.drop i ++ el.lRecs.drop (el.lNextFreeRec + 1) }

/-- `ocfs2_rotate_leaf`. -/
def rotateLeaf (r : ExtentRec) : Option ExtentList :=
  if el.lNextFreeRec = 0 then none
  else if isEmptyExtent (el.recAt 0) then some (insertSorted (dropFirst el) r)
  else if el.lNextFreeRec = el.lCount then none
  else some (insertSorted el r)

/-- `ocfs2_create_empty_extent`. -/
def createEmptyExtent : Option ExtentList :=
  if el.lTreeDepth ≠ 0 then none
  else if el.lNextFreeRec = 0 then some { el.setRec 0 ExtentRec.zero with lNextFreeRec := 1 }
  else if isEmptyExtent (el.recAt 0) then some el
  else (shiftRecordsRight el).map fun el =>
    { el.setRec 0 ExtentRec.zero with lNextFreeRec := el.lNextFreeRec + 1 }

/-- `ocfs2_leftmost_rec_contains`. -/
def leftmostRecContains (cpos : Nat) : Bool :=
  if el.lNextFreeRec = 0 then false
  else
    let contains (r : ExtentRec) : Bool :=
      decide (r.eCpos ≤ cpos) && decide (cpos < addW 32 r.eCpos (recClusters el.lTreeDepth r))
    if isEmptyExtent (el.recAt 0) then
      if el.lNextFreeRec = 1 then false else contains (el.recAt 1)
    else contains (el.recAt 0)

/-! ### Paths -/

abbrev TreePath : Type := List ExtentBlock

/-- `path_leaf_el`, for a path whose root list is `root`. -/
def pathLeafEl (root : ExtentList) (path : TreePath) : ExtentList :=
  match path.getLast? with
  | some eb => eb.hList
  | none => root

def setLeafEl (path : TreePath) (el : ExtentList) : TreePath :=
  match path with
  | [] => []
  | [eb] => [{ eb with hList := el }]
  | eb :: eb' :: rest => eb :: setLeafEl (eb' :: rest) el

/-- `ocfs2_find_subtree_root`. -/
def findSubtreeRoot : TreePath → TreePath → Option Nat
  | l :: ls, r :: rs => if l.hBlkno = r.hBlkno then (findSubtreeRoot ls rs).map (· + 1) else some 0
  | _, _ => none

/-- The loop of `ocfs2_find_cpos_for_left_leaf`, from the list `el` of the path down: the
    lowest level at which something lies to the left decides. -/
def leftLeafCpos : ExtentList → TreePath → Except Errcode (Option Nat)
  | _, [] => .ok none
  | el, eb :: path =>
    match leftLeafCpos eb.hList path with
    | .error e => .error e
    | .ok (some cpos) => .ok (some cpos)
    | .ok none =>
      match el.live.findIdx? fun r => r.eBlkno == eb.hBlkno with
      | none => .error .corruptExtentBlock
      | some 0 => .ok none
      | some (j + 1) => .ok (some (subW 32
          (addW 32 (el.recAt j).eCpos (recClusters el.lTreeDepth (el.recAt j))) 1))

/-- `ocfs2_find_cpos_for_left_leaf`: `0` if the path is the leftmost one. -/
def findCposForLeftLeaf (root : ExtentList) (path : TreePath) : M Nat := do
  check (decide (path ≠ []))
  let cpos ← ofExcept (leftLeafCpos root path)
  pure (cpos.getD 0)

/-- `ocfs2_adjust_adjacent_records`: the records `left` and `right`, and the list the
    right one leads to. -/
def adjustAdjacentRecords (left right : ExtentRec) (rightChildEl : ExtentList) :
    Option (ExtentRec × ExtentRec) :=
  let adjust (start : Nat) : ExtentRec × ExtentRec :=
    let leftClusters := subW 32 start left.eCpos
    let rightEnd := addW 32 right.eCpos right.eIntClusters
    let cpos := addW 32 left.eCpos leftClusters
    (left.setIntClusters leftClusters,
      { right with eCpos := cpos }.setIntClusters (subW 32 rightEnd cpos))
  if isEmptyExtent (rightChildEl.recAt 0) then
    if 1 < rightChildEl.lNextFreeRec then some (adjust (rightChildEl.recAt 1).eCpos) else none
  else some (adjust (rightChildEl.recAt 0).eCpos)

/-- `ocfs2_adjust_root_records`. -/
def adjustRootRecords (rootEl leftEl rightEl : ExtentList) (leftElBlkno : Nat) :
    Option ExtentList :=
  let i := (rootEl.lRecs.take (rootEl.lNextFreeRec - 1)).findIdx fun r => r.eBlkno == leftElBlkno
  if leftEl.lTreeDepth < rootEl.lTreeDepth ∧ i < rootEl.lNextFreeRec - 1 then
    (adjustAdjacentRecords (rootEl.recAt i) (rootEl.recAt (i + 1)) rightEl).map fun (l, r) =>
      (rootEl.setRec i l).setRec (i + 1) r
  else none

/-- The loop of `ocfs2_complete_edge_insert` over the parts of two paths below their subtree root.
    The lowest blocks come first; the index of the left record is taken from the list below it. -/
def completeEdgeLoop : TreePath → TreePath → Option (TreePath × TreePath)
  | l :: l' :: ls, r :: r' :: rs => do
    let (lefts, rights) ← completeEdgeLoop (l' :: ls) (r' :: rs)
    match lefts, rights with
    | leftChild :: _, rightChild :: _ =>
      let idx := leftChild.hList.lNextFreeRec - 1
      let (leftRec, rightRec) ←
        adjustAdjacentRecords (l.hList.recAt idx) (r.hList.recAt 0) rightChild.hList
      pure ({ l with hList := l.hList.setRec idx leftRec } :: lefts,
        { r with hList := r.hList.setRec 0 rightRec } :: rights)
    | _, _ => none
  | ls, rs => some (ls, rs)

/-- Two paths with their root list. -/
structure PathPair where
  root : ExtentList
  left : TreePath
  right : TreePath

/-- `ocfs2_complete_edge_insert`. The subtree root of the left path is copied over the one
    of the right path; at index 0 both are the inode buffer. -/
def completeEdgeInsert (p : PathPair) (subtreeIndex : Nat) : Option PathPair := do
  let (lefts, rights) ← completeEdgeLoop (p.left.drop subtreeIndex) (p.right.drop subtreeIndex)
  match lefts, rights with
  | leftChild :: _, rightChild :: _ =>
    match subtreeIndex with
    | 0 =>
      let root ← adjustRootRecords p.root leftChild.hList rightChild.hList leftChild.hBlkno
      pure ⟨root, lefts, rights⟩
    | i + 1 =>
      match p.left[i]? with
      | none => none
      | some eb =>
        let el ← adjustRootRecords eb.hList leftChild.hList rightChild.hList leftChild.hBlkno
        pure ⟨p.root, p.left.take i ++ { eb with hList := el } :: lefts,
          p.right.take i ++ { eb with hList := el } :: rights⟩
  | _, _ => none

/-- `ocfs2_write_path_eb`: the blocks below `subIndex`, the leaf first. -/
def writePathEb (fs : Filesys) (path : TreePath) (subIndex : Nat) : M Unit :=
  (path.drop subIndex).reverse.forM fun eb => writeExtentBlock fs eb.hBlkno eb

def writeSubtreeRoot (fs : Filesys) (path : TreePath) : Nat → M Unit
  | 0 => pure ()
  | i + 1 =>
    match path[i]? with
    | some eb => writeExtentBlock fs eb.hBlkno eb
    | none => abort

/-- `ocfs2_sync_path_to_disk`. -/
def syncPathToDisk (fs : Filesys) (left right : Option TreePath) (subtreeIndex : Nat) : M Unit := do
  check (left.isSome || right.isSome)
  match left with
  | some path => writePathEb fs path subtreeIndex
  | none => pure ()
  match right with
  | some path => writePathEb fs path subtreeIndex
  | none => pure ()
  match right.or left with
  | some path => writeSubtreeRoot fs path subtreeIndex
  | none => pure ()

def setRootEl (el : ExtentList) : M Unit :=
  Prog.modify fun s => { s with root := { s.root with iList := el } }

/-- `ocfs2_complete_edge_insert` and `ocfs2_sync_path_to_disk` on the paths. -/
def completeAndSync (fs : Filesys) (p : PathPair) (subtreeIndex : Nat) : M PathPair := do
  let p ← ofOption (completeEdgeInsert p subtreeIndex)
  setRootEl p.root
  syncPathToDisk fs (some p.left) (some p.right) subtreeIndex
  pure p

/-! ### Rotating to the right -/

/-- The last record of the left leaf moves to the front of the right one; an empty record
    takes its place. -/
def moveRecordRight (leftEl rightEl : ExtentList) : Option (ExtentList × ExtentList) := do
  let rightEl ← createEmptyExtent rightEl
  let moveRec := leftEl.recAt (leftEl.lNextFreeRec - 1)
  let shifted ← shiftRecordsRight { leftEl with lNextFreeRec := leftEl.lNextFreeRec - 1 }
  pure ({ shifted.setRec 0 ExtentRec.zero with lNextFreeRec := shifted.lNextFreeRec + 1 },
    rightEl.setRec 0 moveRec)

/-- `ocfs2_rotate_subtree_right`. -/
def rotateSubtreeRight (fs : Filesys) (left right : TreePath) (subtreeIndex : Nat) :
    M (TreePath × TreePath) := do
  let s ← Prog.get
  let leftEl := pathLeafEl s.root.iList left
  if leftEl.lNextFreeRec ≠ leftEl.lCount then fail .corruptExtentBlock
  -- the leaf may have an empty record already
  else if isEmptyExtent (leftEl.recAt 0) then pure (left, right)
  else do
    let (leftEl, rightEl) ← ofOption (moveRecordRight leftEl (pathLeafEl s.root.iList right))
    let p ← completeAndSync fs
      ⟨s.root.iList, setLeafEl left leftEl, setLeafEl right rightEl⟩ subtreeIndex
    pure (p.left, p.right)

/-- `ocfs2_rotate_requires_path_adjustment`. -/
def rotateRequiresPathAdjustment (leftEl : ExtentList) (insertCpos : Nat) : Bool :=
  decide ((leftEl.recAt (leftEl.lNextFreeRec - 1)).eCpos < insertCpos)

/-- `enum ocfs2_split_type`. -/
inductive SplitType where
  | none
  | left
  | right
deriving DecidableEq, Repr

/-- The loop of `ocfs2_rotate_tree_right`: the path to insert into, and the one to its left
    if that has to be adjusted after the insert. `cpos` leads to the leaf to the left of
    `right`; every turn goes one leaf to the left. -/
def rotateTreeRightLoop (fs : Filesys) (split : SplitType) (insertCpos : Nat) :
    Nat → Nat → TreePath → M (TreePath × Option TreePath)
  | 0, _, _ => abort
  | n + 1, cpos, right =>
    if cpos = 0 ∨ cpos < insertCpos then pure (right, none)
    else do
      let s ← Prog.get
      let left ← findPath fs s.root.iList cpos
      check (decide (left.getLast?.map ExtentBlock.hBlkno ≠
        right.getLast?.map ExtentBlock.hBlkno))
      if split = .none ∧ rotateRequiresPathAdjustment (pathLeafEl s.root.iList left) insertCpos then
        pure (right, some left)
      else do
        let start ← ofOption (findSubtreeRoot left right)
        let (left, right) ← rotateSubtreeRight fs left right start
        let s ← Prog.get
        if split ≠ .none ∧ leftmostRecContains (pathLeafEl s.root.iList right) insertCpos then
          pure (right, some left)
        else do
          let cpos ← findCposForLeftLeaf s.root.iList left
          rotateTreeRightLoop fs split insertCpos n cpos left

/-- `ocfs2_rotate_tree_right`, from the rightmost path. There are fewer leaves than clusters. -/
def rotateTreeRight (fs : Filesys) (split : SplitType) (insertCpos : Nat) (right : TreePath) :
    M (TreePath × Option TreePath) := do
  let s ← Prog.get
  let cpos ← findCposForLeftLeaf s.root.iList right
  rotateTreeRightLoop fs split insertCpos (uint32Max + 1) cpos right

end Ocfs2Tools
