import Ocfs2Tools.Lib.Lists
import Ocfs2Tools.Device

/-!
# Extent trees on the device

`readKids` reads what hangs below an extent list. The tree it returns is plain
data, so that its records, leaves and block numbers are list functions
(`treeRecs`, `treeLeaves`, `treeBlocks`). `treeMap` is what a tree means: a partial
map from file clusters to a physical block and flags.

`WfList` is the shape the code works on. It carries the range `[lo, hi)` that the
record above gives to the list: an interior list tiles its range from `lo` on, a
leaf list keeps its records inside. Only lists on the rightmost path may have free
slots.
-/

namespace Ocfs2Tools

open ExtentRec

/-! ### Reading a tree -/

/-- An extent block with the blocks its records lead to. -/
inductive Node where
  | mk (eb : ExtentBlock) (kids : List Node)

def Node.eb : Node → ExtentBlock
  | .mk eb _ => eb

def Node.kids : Node → List Node
  | .mk _ kids => kids

@[simp] theorem Node.eb_mk (eb : ExtentBlock) (kids : List Node) : (Node.mk eb kids).eb = eb := rfl

@[simp] theorem Node.kids_mk (eb : ExtentBlock) (kids : List Node) :
    (Node.mk eb kids).kids = kids := rfl

/-- Follow the records in use of a list of depth `d`. A record has to lead to an
    extent block that knows its own number. -/
def readKids (ebs : Nat → Option ExtentBlock) : Nat → ExtentList → Option (List Node)
  | 0, _ => some []
  | d + 1, el => optAll (fun r =>
      match ebs r.eBlkno with
      | some eb => if eb.hBlkno = r.eBlkno then (readKids ebs d eb.hList).map (Node.mk eb) else none
      | none => none) el.live

def ExtentList.nonempty (el : ExtentList) : List ExtentRec :=
  el.live.filter fun r => !isEmptyExtent r

/-- The nonempty leaf records of a tree, from left to right. -/
def treeRecs : Nat → ExtentList → List Node → List ExtentRec
  | 0, el, _ => el.nonempty
  | d + 1, _, ks => ks.flatMap fun k => treeRecs d k.eb.hList k.kids

/-- The leaf blocks below a list of depth `d`, from left to right (none when the list
    itself is the leaf). -/
def treeLeaves : Nat → List Node → List ExtentBlock
  | 0, _ => []
  | 1, ks => ks.map Node.eb
  | d + 2, ks => ks.flatMap fun k => treeLeaves (d + 1) k.kids

/-- The numbers of all blocks below a list of depth `d`. -/
def treeBlocks : Nat → List Node → List Nat
  | 0, _ => []
  | d + 1, ks => ks.flatMap fun k => k.eb.hBlkno :: treeBlocks d k.kids

/-! ### What a tree means -/

variable (fs : Filesys)

/-- The block and flags a leaf record gives to cluster `v`. -/
def ExtentRec.phys (r : ExtentRec) (v : Nat) : Option (Nat × Nat) :=
  if Covers eCpos eLeafClusters r v then
    some (r.eBlkno + clustersToBlocks fs (v - r.eCpos), r.eFlags)
  else none

def recsMap (recs : List ExtentRec) (v : Nat) : Option (Nat × Nat) :=
  recs.findSome? fun r => r.phys fs v

/-- The leaf records of the tree whose root list is `el`, as read from the device. -/
def diskRecs (ebs : Nat → Option ExtentBlock) (el : ExtentList) : List ExtentRec :=
  match readKids ebs el.lTreeDepth el with
  | some ks => treeRecs el.lTreeDepth el ks
  | none => []

def treeMap (ebs : Nat → Option ExtentBlock) (el : ExtentList) (v : Nat) :
    Option (Nat × Nat) :=
  recsMap fs (diskRecs ebs el) v

/-! ### Well-formed lists -/

/-- A leaf record that maps data: its blocks are whole clusters other than the first
    of the device, and cluster numbers fit `uint32_t`. -/
structure RecOk (r : ExtentRec) : Prop where
  fits : r.Fits
  blkno_ne : r.eBlkno ≠ 0
  aligned : fs.bpc ∣ r.eBlkno
  bound : r.eBlkno / fs.bpc + r.eLeafClusters ≤ uint32Max

instance (r : ExtentRec) : Decidable (RecOk fs r) :=
  decidable_of_iff (r.Fits ∧ r.eBlkno ≠ 0 ∧ fs.bpc ∣ r.eBlkno ∧
      r.eBlkno / fs.bpc + r.eLeafClusters ≤ uint32Max)
    ⟨fun h => ⟨h.1, h.2.1, h.2.2.1, h.2.2.2⟩, fun h => ⟨h.1, h.2, h.3, h.4⟩⟩

/-- The records of a leaf without the zeroed record it may start with. -/
def dropEmpty : List ExtentRec → List ExtentRec
  | [] => []
  | r :: rs => if r = ExtentRec.zero then rs else r :: rs

/-- A leaf list over `[lo, hi)`: at most one empty record, at index 0; the others
    ordered and disjoint. -/
structure LeafOk (lo hi : Nat) (el : ExtentList) : Prop where
  depth : el.lTreeDepth = 0
  le : el.lNextFreeRec ≤ el.lCount
  spaced : Spaced eCpos eLeafClusters lo (dropEmpty el.live) hi
  recs : ∀ r ∈ dropEmpty el.live, RecOk fs r

instance (lo hi : Nat) (el : ExtentList) : Decidable (LeafOk fs lo hi el) :=
  decidable_of_iff (el.lTreeDepth = 0 ∧ el.lNextFreeRec ≤ el.lCount ∧
      Spaced eCpos eLeafClusters lo (dropEmpty el.live) hi ∧
      ∀ r ∈ dropEmpty el.live, RecOk fs r)
    ⟨fun h => ⟨h.1, h.2.1, h.2.2.1, h.2.2.2⟩, fun h => ⟨h.1, h.2, h.3, h.4⟩⟩

/-- An interior list of depth `d` over `[lo, hi)`, on its own. -/
structure NodeOk (d lo hi : Nat) (el : ExtentList) : Prop where
  depth : el.lTreeDepth = d
  le : el.lNextFreeRec ≤ el.lCount
  ne : el.live ≠ []
  fits : ∀ r ∈ el.live, r.Fits
  tiled : Tiled eCpos eIntClusters lo el.live hi

instance (d lo hi : Nat) (el : ExtentList) : Decidable (NodeOk d lo hi el) :=
  decidable_of_iff (el.lTreeDepth = d ∧ el.lNextFreeRec ≤ el.lCount ∧ el.live ≠ [] ∧
      (∀ r ∈ el.live, r.Fits) ∧ Tiled eCpos eIntClusters lo el.live hi)
    ⟨fun h => ⟨h.1, h.2.1, h.2.2.1, h.2.2.2.1, h.2.2.2.2⟩, fun h => ⟨h.1, h.2, h.3, h.4, h.5⟩⟩

/-- A list of depth `d` to which the record above gives the range `[lo, hi)`, with
    what hangs below it; `right` says that the list lies on the rightmost path. -/
def WfList (fs : Filesys) : Nat → Bool → Nat → Nat → ExtentList → List Node → Prop
  | 0, right, lo, hi, el, ks =>
    LeafOk fs lo hi el ∧ dropEmpty el.live ≠ [] ∧ ks = [] ∧
      (right = false → el.lNextFreeRec = el.lCount)
  | d + 1, right, lo, hi, el, ks =>
    NodeOk (d + 1) lo hi el ∧ (right = false → el.lNextFreeRec = el.lCount) ∧
      EachLast (fun right r k => k.eb.hList.lCount = extentRecsPerEb fs ∧
        WfList fs d right r.eCpos (r.eCpos + r.eIntClusters) k.eb.hList k.kids) right el.live ks

instance decidableNoNodes : (ks : List Node) → Decidable (ks = [])
  | [] => .isTrue rfl
  | _ :: _ => .isFalse (by simp)

instance decidableWfList (fs : Filesys) : (d : Nat) → (right : Bool) → (lo hi : Nat) →
    (el : ExtentList) → (ks : List Node) → Decidable (WfList fs d right lo hi el ks)
  | 0, right, lo, hi, el, ks =>
    inferInstanceAs (Decidable (LeafOk fs lo hi el ∧ dropEmpty el.live ≠ [] ∧ ks = [] ∧
      (right = false → el.lNextFreeRec = el.lCount)))
  | d + 1, right, lo, hi, el, ks =>
    have : ∀ (f : Bool) (r : ExtentRec) (k : Node),
        Decidable (k.eb.hList.lCount = extentRecsPerEb fs ∧
          WfList fs d f r.eCpos (r.eCpos + r.eIntClusters) k.eb.hList k.kids) := fun f r k =>
      have := decidableWfList fs d f r.eCpos (r.eCpos + r.eIntClusters) k.eb.hList k.kids
      inferInstance
    @instDecidableAnd (NodeOk (d + 1) lo hi el) _ inferInstance
      (@instDecidableAnd (right = false → el.lNextFreeRec = el.lCount) _ inferInstance
        (decidableEachLast _ right el.live ks))

/-- The leaf blocks are chained by `h_next_leaf_blk`, and the last one ends the chain. -/
def LeafChain : List ExtentBlock → Prop
  | [] => True
  | [eb] => eb.hNextLeafBlk = 0
  | eb :: eb' :: rest => eb.hNextLeafBlk = eb'.hBlkno ∧ LeafChain (eb' :: rest)

instance decidableLeafChain : (leaves : List ExtentBlock) → Decidable (LeafChain leaves)
  | [] => .isTrue trivial
  | [eb] => inferInstanceAs (Decidable (eb.hNextLeafBlk = 0))
  | eb :: eb' :: rest =>
    have := decidableLeafChain (eb' :: rest)
    inferInstanceAs (Decidable (eb.hNextLeafBlk = eb'.hBlkno ∧ _))

def lastLeafBlk (leaves : List ExtentBlock) : Nat :=
  match leaves.getLast? with
  | some eb => eb.hBlkno
  | none => 0

/-! ### Well-formed trees -/

/-- The root list and what was read below it form an extent tree. A root list of
    depth 0 may be empty; every leaf block maps something. The first record of an
    interior root starts at cluster 0, as `shift_tree_depth` leaves it: the code takes
    a path to be the leftmost one when its cluster is 0. -/
structure WfRoot (di : Dinode) (ks : List Node) : Prop where
  depth_lt : di.iList.lTreeDepth < maxPathDepth
  count_pos : 0 < di.iList.lCount
  count_le : di.iList.lCount ≤ extentRecsPerInode fs
  leaf : di.iList.lTreeDepth = 0 → LeafOk fs 0 uint32Max di.iList
  node : di.iList.lTreeDepth ≠ 0 → WfList fs di.iList.lTreeDepth true 0 uint32Max di.iList ks
  nodup : (treeBlocks di.iList.lTreeDepth ks).Nodup
  range : ∀ b ∈ treeBlocks di.iList.lTreeDepth ks, outOfRange fs b = false
  chain : LeafChain (treeLeaves di.iList.lTreeDepth ks)
  last : di.iLastEbBlk = lastLeafBlk (treeLeaves di.iList.lTreeDepth ks)

instance (di : Dinode) (ks : List Node) : Decidable (WfRoot fs di ks) :=
  decidable_of_iff (di.iList.lTreeDepth < maxPathDepth ∧ 0 < di.iList.lCount ∧
      di.iList.lCount ≤ extentRecsPerInode fs ∧
      (di.iList.lTreeDepth = 0 → LeafOk fs 0 uint32Max di.iList) ∧
      (di.iList.lTreeDepth ≠ 0 → WfList fs di.iList.lTreeDepth true 0 uint32Max di.iList ks) ∧
      (treeBlocks di.iList.lTreeDepth ks).Nodup ∧
      (∀ b ∈ treeBlocks di.iList.lTreeDepth ks, outOfRange fs b = false) ∧
      LeafChain (treeLeaves di.iList.lTreeDepth ks) ∧
      di.iLastEbBlk = lastLeafBlk (treeLeaves di.iList.lTreeDepth ks))
    ⟨fun ⟨h1, h2, h3, h4, h5, h6, h7, h8, h9⟩ => ⟨h1, h2, h3, h4, h5, h6, h7, h8, h9⟩,
      fun h => ⟨h.1, h.2, h.3, h.4, h.5, h.6, h.7, h.8, h.9⟩⟩

/-- The device holds a well-formed extent tree below the root buffer `di`. -/
def WfTree (ebs : Nat → Option ExtentBlock) (di : Dinode) : Prop :=
  ∃ ks, readKids ebs di.iList.lTreeDepth di.iList = some ks ∧ WfRoot fs di ks

/-! ### A small tree to run things on -/

/-- A file system with 512-byte blocks and 4 KiB clusters. -/
def smallFs : Filesys := .smallBlocks 1000000

def listOf (depth count : Nat) (recs : List ExtentRec) : ExtentList :=
  ⟨depth, recs.length, recs ++ List.replicate (count - recs.length) ExtentRec.zero⟩

/-- Leaf records of one cluster each, every other cluster from `cpos` on. -/
def sparseRecs (cpos blkno : Nat) : Nat → List ExtentRec
  | 0 => []
  | n + 1 => ⟨cpos, 1, 0, 0, blkno⟩ :: sparseRecs (cpos + 2) (blkno + 16) n

def smallInode (lastEbBlk : Nat) (el : ExtentList) : Dinode where
  iBlkno := 5
  iMode := 0
  iFlags := validFl
  iDynFeatures := 0
  iSize := 0
  iClusters := 0
  iLastEbBlk := lastEbBlk
  iRefcountLoc := 0
  iList := el
  idCount := 0
  idData := []

def ebsOf (ebs : List ExtentBlock) (b : Nat) : Option ExtentBlock :=
  ebs.find? fun eb => eb.hBlkno == b

/-- A run that starts on the blocks `ebs` and the inode `di`: every block of `ebs` is
    allocated in slot 0, and the allocator hands out `allocs`. -/
def smallSt (ebs : List ExtentBlock) (di : Dinode) (allocs : List (Option Nat)) : St where
  dev :=
    { ebs := ebsOf ebs
      used := fun slot b => slot == 0 && (ebsOf ebs b).isSome
      inode := di
      blocks := fun _ => [] }
  root := di
  allocs := allocs
  faults := []
  history := []
  released := []

/-- A full leaf and one that starts with an empty record. -/
def twoLeaves : List ExtentBlock :=
  [⟨0, 10, 11, listOf 0 28 (sparseRecs 0 800 28)⟩,
    ⟨0, 11, 0, listOf 0 28 [ExtentRec.zero, ⟨150, 3, 0, extUnwritten, 8000⟩]⟩]

def twoLeafInode : Dinode :=
  smallInode 11 (listOf 1 19 [⟨0, 100, 0, 0, 10⟩, ⟨100, 100, 0, 0, 11⟩])

theorem twoLeaf_wf : WfTree smallFs (ebsOf twoLeaves) twoLeafInode :=
  ⟨twoLeaves.map (Node.mk · []), rfl, by decide⟩

end Ocfs2Tools
