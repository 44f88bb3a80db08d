import Ocfs2Tools.ExtentTree.WellFormed

/-!
# The extent iterator of `extents.c`

`ocfs2_extent_iterate_inode` walks a whole extent tree and hands every record to a
callback, which may change it. A list with a changed record is written back with its
`l_next_free_rec` counted anew; on the way the iterator notes the last leaf it kept.
The callback gets the record, its depth and the caller's data; the running cluster
count and the position of the record are left out, as the callbacks modelled here do
not look at them.
-/

namespace Ocfs2Tools

open Prog

/-- What an iteration function returns: `OCFS2_EXTENT_CHANGED`, `OCFS2_EXTENT_ABORT`
    and `OCFS2_EXTENT_ERROR`. -/
structure IterFlags where
  changed : Bool
  abort : Bool
  error : Bool
deriving DecidableEq, Repr

namespace IterFlags

def nothing : IterFlags := ⟨false, false, false⟩
def extentChanged : IterFlags := ⟨true, false, false⟩
def extentError : IterFlags := ⟨false, false, true⟩

def or (a b : IterFlags) : IterFlags :=
  ⟨a.changed || b.changed, a.abort || b.abort, a.error || b.error⟩

/-- `iret & (OCFS2_EXTENT_ABORT | OCFS2_EXTENT_ERROR)`. -/
def stops (f : IterFlags) : Bool := f.abort || f.error

end IterFlags

/-- The flags given to the iterator: `OCFS2_EXTENT_FLAG_DEPTH_TRAVERSE` and
    `OCFS2_EXTENT_FLAG_DATA_ONLY`. -/
structure IterMode where
  depthTraverse : Bool
  dataOnly : Bool
deriving DecidableEq, Repr

/-- The part of `struct extent_context` that changes during a walk, with the caller's data. -/
structure ExtentContext (κ : Type) where
  errcode : Option Errcode
  lastEbBlkno : Nat
  lastEbCpos : Nat
  privData : κ

/-- A callback: it gets a record, its depth and the caller's data, and may change both. -/
abbrev ExtentFunc (κ : Type) : Type := ExtentRec → Nat → κ → M (IterFlags × ExtentRec × κ)

section

variable {κ : Type} (fs : Filesys) (mode : IterMode) (func : ExtentFunc κ)

/-- `(*ctxt->func)(...)`. -/
def callFunc (r : ExtentRec) (treeDepth : Nat) (ctxt : ExtentContext κ) :
    M (IterFlags × ExtentRec × ExtentContext κ) := do
  let (flags, r, priv) ← func r treeDepth ctxt.privData
  pure (flags, r, { ctxt with privData := priv })

def callBefore (r : ExtentRec) (treeDepth : Nat) (ctxt : ExtentContext κ) :
    M (IterFlags × ExtentRec × ExtentContext κ) :=
  if mode.depthTraverse = false ∧ mode.dataOnly = false then callFunc func r treeDepth ctxt
  else pure (IterFlags.nothing, r, ctxt)

def callAfter (iret : IterFlags) (r : ExtentRec) (treeDepth : Nat) (ctxt : ExtentContext κ) :
    M (IterFlags × ExtentRec × ExtentContext κ) :=
  if mode.depthTraverse = true ∧ mode.dataOnly = false ∧ iret.stops = false then
    callFunc func r treeDepth ctxt
  else pure (iret, r, ctxt)

def writeChanged (changed : Bool) (blkno : Nat) (eb : ExtentBlock) : M (Except Errcode Unit) :=
  if changed then attempt (writeExtentBlock fs blkno eb) else pure (.ok ())

/-- A successful write leaves its 0 in `ctxt->errcode`. -/
def ExtentContext.wrote (ctxt : ExtentContext κ) (changed : Bool) : ExtentContext κ :=
  if changed then { ctxt with errcode := none } else ctxt

/-- `extent_iterate_eb` on a record of depth `treeDepth + 1`; `iterateEl` is
    `extent_iterate_el` on lists of depth `treeDepth`. -/
def extentIterateEb (treeDepth : Nat)
    (iterateEl : ExtentList → ExtentContext κ → M (IterFlags × ExtentList × ExtentContext κ))
    (ebRec : ExtentRec) (ctxt : ExtentContext κ) :
    M (IterFlags × ExtentRec × ExtentContext κ) := do
  let (iret, ebRec, ctxt) ← callBefore mode func ebRec (treeDepth + 1) ctxt
  if ebRec.eBlkno = 0 ∨ iret.abort then pure (iret, ebRec, ctxt)
  else if outOfRange fs ebRec.eBlkno then
    pure (iret.or .extentError, ebRec, { ctxt with errcode := some .badBlkno })
  else do
    match ← attempt (readExtentBlock fs ebRec.eBlkno) with
    | .error e => pure (iret.or .extentError, ebRec, { ctxt with errcode := some e })
    | .ok eb =>
      if eb.hList.lTreeDepth ≠ treeDepth ∨ eb.hBlkno ≠ ebRec.eBlkno then
        pure (iret.or .extentError, ebRec, { ctxt with errcode := some .corruptExtentBlock })
      else do
        let (flags, el, ctxt) ← iterateEl eb.hList { ctxt with errcode := none }
        let iret := iret.or ⟨false, flags.abort, flags.error⟩
        match ← writeChanged fs flags.changed ebRec.eBlkno { eb with hList := el } with
        | .error e => pure (iret.or .extentError, ebRec, { ctxt with errcode := some e })
        | .ok _ => callAfter mode func iret ebRec (treeDepth + 1) (ctxt.wrote flags.changed)

/-- The loop of `extent_iterate_el` over the records in use: it stops at the first
    record whose call says so. -/
def iterateRecs
    (step : Nat → ExtentRec → ExtentContext κ → M (IterFlags × ExtentRec × ExtentContext κ)) :
    Nat → List ExtentRec → IterFlags → ExtentContext κ →
      M (IterFlags × List ExtentRec × ExtentContext κ)
  | _, [], iret, ctxt => pure (iret, [], ctxt)
  | i, r :: rs, iret, ctxt => do
    let (flags, r', ctxt) ← step i r ctxt
    if (iret.or flags).stops then pure (iret.or flags, r' :: rs, ctxt)
    else do
      let (iret, rs', ctxt) ← iterateRecs step (i + 1) rs (iret.or flags) ctxt
      pure (iret, r' :: rs', ctxt)

/-- What the loop notes about a record that leads to a block. -/
def ExtentContext.noteEb (ctxt : ExtentContext κ) (treeDepth : Nat) (r : ExtentRec) :
    ExtentContext κ :=
  if r.eIntClusters ≠ 0 ∧ ctxt.lastEbCpos ≤ r.eCpos then
    { ctxt with
      lastEbBlkno := if treeDepth = 1 then r.eBlkno else ctxt.lastEbBlkno
      lastEbCpos := r.eCpos }
  else ctxt

/-- The body of the loop for a leaf list: an empty record at index 0 is skipped. -/
def leafStep (i : Nat) (r : ExtentRec) (ctxt : ExtentContext κ) :
    M (IterFlags × ExtentRec × ExtentContext κ) :=
  if i = 0 ∧ r.eLeafClusters = 0 then pure (IterFlags.nothing, r, ctxt)
  else callFunc func r 0 ctxt

def nodeStep (treeDepth : Nat)
    (iterateEl : ExtentList → ExtentContext κ → M (IterFlags × ExtentList × ExtentContext κ))
    (r : ExtentRec) (ctxt : ExtentContext κ) : M (IterFlags × ExtentRec × ExtentContext κ) := do
  let (flags, r, ctxt) ← extentIterateEb fs mode func treeDepth iterateEl r ctxt
  pure (flags, r, ctxt.noteEb (treeDepth + 1) r)

/-- Count the records of a changed list: up to the first one without clusters, wherever
    it is in the array. -/
def recountRecs (treeDepth : Nat) (el : ExtentList) : ExtentList :=
  match el.lRecs.findIdx? fun r => recClusters treeDepth r == 0 with
  | some i => { el with lNextFreeRec := i }
  | none => el

/-- The end of `extent_iterate_el`: the records in use are now `rs`. -/
def finishEl (treeDepth : Nat) (changed : Bool) (el : ExtentList) (rs : List ExtentRec) :
    ExtentList :=
  let el := { el with lRecs := rs ++ el.lRecs.drop el.lNextFreeRec }
  if changed then recountRecs treeDepth el else el

theorem finishEl_unchanged {d : Nat} {el : ExtentList} : finishEl d false el el.live = el := by
  simp [finishEl, ExtentList.live]

/-- `extent_iterate_el` on a list of depth `treeDepth`. -/
def extentIterateEl : Nat → ExtentList → ExtentContext κ →
    M (IterFlags × ExtentList × ExtentContext κ)
  | 0, el, ctxt => do
    let (iret, rs, ctxt) ← iterateRecs (leafStep func) 0 el.live IterFlags.nothing ctxt
    pure (iret, finishEl 0 iret.changed el rs, ctxt)
  | treeDepth + 1, el, ctxt => do
    let (iret, rs, ctxt) ← iterateRecs
      (fun _ => nodeStep fs mode func treeDepth (extentIterateEl treeDepth)) 0 el.live
      IterFlags.nothing ctxt
    pure (iret, finishEl (treeDepth + 1) iret.changed el rs, ctxt)

/-- The check of `i_last_eb_blk` at the end of `ocfs2_extent_iterate_inode`: the last
    leaf gets no successor. -/
def endLeafChain (di : Dinode) : M Unit :=
  if di.iList.lTreeDepth = 0 then pure ()
  else do
    let eb ← readExtentBlock fs di.iLastEbBlk
    if eb.hNextLeafBlk ≠ 0 then
      writeExtentBlock fs di.iLastEbBlk { eb with hNextLeafBlk := 0 }
    else pure ()

/-- `ocfs2_extent_iterate_inode` without a buffer of the caller's: the inode buffer and
    the caller's data as the walk leaves them. -/
def extentIterateInode (di : Dinode) (priv : κ) : M (Dinode × κ) :=
  if hasFlag di.iFlags validFl = false then fail .inodeNotValid
  else if hasFlag di.iFlags (superBlockFl ||| localAllocFl ||| chainFl) then
    fail .inodeCannotBeIterated
  else if hasFlag di.iDynFeatures inlineDataFl then fail .inodeCannotBeIterated
  else do
    let (iret, el, ctxt) ← extentIterateEl fs mode func di.iList.lTreeDepth di.iList
      ⟨none, 0, 0, priv⟩
    match if iret.error then ctxt.errcode else none with
    | some e => fail e
    | none => do
      let di' := { di with
        iList := el
        iLastEbBlk := if iret.abort then di.iLastEbBlk else ctxt.lastEbBlkno }
      if iret.changed ∨ di'.iLastEbBlk ≠ di.iLastEbBlk then do
        writeInode fs di'
        endLeafChain fs di'
        pure (di', ctxt.privData)
      else do
        endLeafChain fs di'
        pure (di', ctxt.privData)

end

/-- The inode has an extent tree that can be walked. -/
structure Walkable (di : Dinode) : Prop where
  valid : hasFlag di.iFlags validFl = true
  plain : hasFlag di.iFlags (superBlockFl ||| localAllocFl ||| chainFl) = false
  extents : hasFlag di.iDynFeatures inlineDataFl = false

end Ocfs2Tools
