import Ocfs2Tools.ChainAlloc.Model

/-!
# Bitmaps: `bitmap.c`

A bitmap is made of regions, each with its own buffer. The regions are kept in a red-black
tree; here they are a list in the order of the tree, and the tree over their numbers is
`shape`, which is left open: how it is balanced makes a difference to a search for a range
that meets several regions.

Cluster bitmaps and chain allocators have a region for every bit in use. A block bitmap has
holes, and makes regions on demand. Neighbouring regions are merged, but not those of chain
allocators. What a chain allocator does with a changed bit besides is in `ChainAlloc.Model`.
-/

namespace Ocfs2Tools

open Bitops
open ChainAlloc (RTree searchRun bump)

/-- `struct ocfs2_bitmap_region`; `br_bytes` is the length of the buffer. -/
structure Bitmap.Region where
  brStartBit : Nat
  brBitmapStart : Nat
  brValidBits : Nat
  brSetBits : Int
  brBitmap : List UInt8
deriving DecidableEq, Inhabited

namespace Bitmap

def Region.brTotalBits (r : Region) : Nat := r.brValidBits + r.brBitmapStart

def Region.stop (r : Region) : Nat := r.brStartBit + r.brValidBits

/-- `ocfs2_bitmap_alloc_region`. -/
def allocRegion (startBit bitmapStart totalBits : Nat) : Region :=
  ⟨startBit, bitmapStart, totalBits, 0, List.replicate ((totalBits + bitmapStart + 7) / 8) 0⟩

end Bitmap

/-- `struct _ocfs2_bitmap`. -/
structure Bitmap where
  bTotalBits : Nat
  bSetBits : Nat
  regions : List Bitmap.Region
deriving DecidableEq

namespace Bitmap

inductive BitmapError where
  | invalidBit
  | invalidArgument
  | bitNotFound
deriving DecidableEq, Repr

/-- `global_cluster_ops`, `global_block_ops` and `chainalloc_bitmap_ops`. -/
inductive Kind where
  | cluster
  | block
  | chain
deriving DecidableEq, Repr

/-- A call: what it returns and the bitmap after it, unless it leaves a buffer. -/
abbrev Result (α : Type) : Type := Option (Except BitmapError α × Bitmap)

/-! ### Merging and inserting regions -/

/-- The bytes from the last one of `prev` on, while the bits of `next` are shifted in: `cur` is
    the byte at hand, of which `offset` bits are in use. -/
def shiftIn (offset : Nat) : UInt8 → List UInt8 → Int → List UInt8
  | cur, [], _ => [cur]
  | cur, b :: rest, bits =>
    if 0 < bits then
      let byte := UInt8.ofNat ((cur.toNat &&& (2 ^ offset - 1)) |||
        ((b.toNat &&& (2 ^ (8 - offset) - 1)) <<< offset))
      if 0 < bits - (8 - offset) then
        byte :: shiftIn offset (UInt8.ofNat (b.toNat >>> (8 - offset))) rest (bits - 8)
      else [byte]
    else [cur]

def intMax : Nat := 2 ^ 31 - 1

/-- `ocfs2_bitmap_merge_region`; `agree` is the answer of the merge hook. The size of the new
    buffer is computed in an `int`: above `INT_MAX - 7` bits it overflows, and there is no buffer
    of that size. -/
def mergeRegion (agree : Bool) (bTotalBits : Nat) (prev next : Region) : Option Region :=
  if prev.stop ≠ next.brStartBit ∨ agree = false ∨ prev.brBitmapStart ≠ 0 ∨
      next.brBitmapStart ≠ 0 ∨ intMax < prev.brTotalBits + next.brTotalBits + 7 ∨
      bTotalBits < prev.brStartBit + (prev.brTotalBits + next.brTotalBits) then none
  else some { prev with
      brValidBits := prev.brTotalBits + next.brTotalBits
      brSetBits := prev.brSetBits + next.brSetBits
      brBitmap :=
        if prev.brTotalBits % 8 = 0 then prev.brBitmap ++ next.brBitmap
        else prev.brBitmap.dropLast ++ shiftIn (prev.brTotalBits % 8) (prev.brBitmap.getLastD 0)
          next.brBitmap next.brTotalBits }

section Insert

variable (agree : Bool) (bTotalBits : Nat)

def joinNext (br : Region) : List Region → List Region
  | [] => [br]
  | next :: rest =>
    match mergeRegion agree bTotalBits br next with
    | some m => m :: rest
    | none => br :: next :: rest

/-- The end of `ocfs2_bitmap_insert_region`. When the region cannot be merged with the one
    before it, it is the two of them that are tried once more. -/
def linkRegion (before : List Region) (br : Region) (after : List Region) : List Region :=
  match before.getLast? with
  | none => joinNext agree bTotalBits br after
  | some prev => before.dropLast ++
    match mergeRegion agree bTotalBits prev br with
    | some m => joinNext agree bTotalBits m after
    | none => joinNext agree bTotalBits prev (br :: after)

end Insert

/-- `ocfs2_bitmap_lookup`: the number of a region that meets a range of bits, or else that of
    the next one behind the range (`last_left`). -/
def lookup (l : List Region) (bitno totalBits : Nat) : RTree → Option Nat → Option Nat × Option Nat
  | .leaf, lastLeft => (none, lastLeft)
  | .node left i right, lastLeft =>
    if (bitno + totalBits) % 2 ^ 64 ≤ (l.getD i default).brStartBit then
      lookup l bitno totalBits left (some i)
    else if (l.getD i default).stop ≤ bitno then lookup l bitno totalBits right lastLeft
    else (some i, none)

variable (shape : Nat → RTree) (kind : Kind)

def search (b : Bitmap) (bitno totalBits : Nat) : Option Nat × Option Nat :=
  lookup b.regions bitno totalBits (shape b.regions.length) none

/-- `ocfs2_bitmap_insert_region`. -/
def insertRegion (br : Region) (b : Bitmap) : Except BitmapError Unit × Bitmap :=
  if b.bTotalBits < br.brStartBit then (.error .invalidBit, b)
  else if (b.search shape br.brStartBit br.brValidBits).1.isSome then (.error .invalidBit, b)
  else
    let before := b.regions.takeWhile fun r => r.stop ≤ br.brStartBit
    (.ok (), { b with
      regions := linkRegion (kind != .chain) b.bTotalBits before br
        (b.regions.drop before.length) })

/-! ### Single bits -/

/-- A bit of the buffer is set or cleared, and counted if it changes. -/
def Region.change (v : Bool) (nr : Nat) (r : Region) : Region :=
  { r with
    brBitmap := if v then setBit nr r.brBitmap else clearBit nr r.brBitmap
    brSetBits := if testBit nr r.brBitmap = v then r.brSetBits
      else if v then r.brSetBits + 1 else r.brSetBits - 1 }

/-- `set_generic_shared`, or `clear_generic_shared` for the value `false`, on the region number
    `i`. -/
def changeShared (v : Bool) (i bitno : Nat) (b : Bitmap) : Option (Bool × Bitmap) :=
  let r := b.regions.getD i default
  let nr : Int := (bitno : Int) - r.brStartBit + r.brBitmapStart
  if 0 ≤ nr ∧ nr < 8 * r.brBitmap.length then
    some (testBit nr.toNat r.brBitmap,
      { b with regions := b.regions.modify i (Region.change v nr.toNat) })
  else none

/-- `ocfs2_bitmap_set_generic` and `ocfs2_bitmap_clear_generic`. -/
def changeGeneric (v : Bool) (bitno : Nat) (b : Bitmap) : Result Bool :=
  match (b.search shape bitno 1).1 with
  | none => some (.error .invalidBit, b)
  | some i => (changeShared v i bitno b).map fun r => (.ok r.1, r.2)

/-- `ocfs2_bitmap_set_holes` and `ocfs2_bitmap_clear_holes`. In a new region there is nothing to
    clear, and `oldval` is not written: `junk` is what it holds. -/
def changeHoles (junk v : Bool) (bitno : Nat) (b : Bitmap) : Result Bool :=
  match changeGeneric shape v bitno b with
  | none => none
  | some (.ok old, b') => some (.ok old, b')
  | some (.error _, _) =>
    match insertRegion shape kind (allocRegion bitno 0 1) b with
    | (.error e, b') => some (.error e, b')
    | (.ok (), b') => if v then changeGeneric shape true bitno b' else some (.ok junk, b')

/-- `ocfs2_bitmap_set` and `ocfs2_bitmap_clear`. -/
def bitmapChange (junk v : Bool) (bitno : Nat) (b : Bitmap) : Result Unit :=
  if b.bTotalBits ≤ bitno then some (.error .invalidBit, b)
  else
    match (if kind = .block then changeHoles shape kind junk v bitno b
      else changeGeneric shape v bitno b) with
    | none => none
    | some (.error e, b') => some (.error e, b')
    | some (.ok old, b') =>
      some (.ok (), if old = v then b' else { b' with bSetBits := bump 64 b'.bSetBits v })

/-- `ocfs2_bitmap_test`. -/
def bitmapTest (bitno : Nat) (b : Bitmap) : Except BitmapError Bool :=
  if b.bTotalBits ≤ bitno then .error .invalidBit
  else
    match (b.search shape bitno 1).1 with
    | some i =>
      let r := b.regions.getD i default
      .ok (testBit (bitno - r.brStartBit + r.brBitmapStart) r.brBitmap)
    | none => if kind = .block then .ok false else .error .invalidBit

/-! ### Searching -/

/-- The regions from the one with the bit on, or from the next one. -/
def regionsFrom (b : Bitmap) (start : Nat) : List Region :=
  match b.search shape start 1 with
  | (some i, _) => b.regions.drop i
  | (none, some i) => b.regions.drop i
  | (none, none) => []

/-- Where a region has its next set or clear bit, or `br_total_bits`. -/
def Region.next (v : Bool) (start : Nat) (r : Region) : Nat :=
  (if v then findNextBitSet else findNextBitClear) r.brBitmap r.brTotalBits
    (start - r.brStartBit + r.brBitmapStart)

/-- The loop of `ocfs2_bitmap_find_next_set_generic` and `..._clear_generic`. -/
def findIn (v : Bool) (start : Nat) : List Region → Option Nat
  | [] => none
  | r :: rest =>
    if r.next v start ≠ r.brTotalBits then some (r.brStartBit + r.next v start - r.brBitmapStart)
    else findIn v start rest

/-- The loop of `ocfs2_bitmap_find_next_clear_holes`. -/
def findClearHoles (start : Nat) : Nat → List Region → Option Nat
  | _, [] => none
  | seen, r :: rest =>
    if seen < r.brStartBit then some seen
    else if r.next false start ≠ r.brTotalBits then
      some (r.brStartBit + r.next false start - r.brBitmapStart)
    else findClearHoles start r.stop rest

/-- `ocfs2_bitmap_find_next_set` and `ocfs2_bitmap_find_next_clear`. -/
def findNext (v : Bool) (start : Nat) (b : Bitmap) : Except BitmapError Nat :=
  if b.bTotalBits ≤ start then .error .invalidBit
  else
    let found :=
      if v = false ∧ kind = .block then
        if b.search shape start 1 = (none, none) then some start
        else findClearHoles start start (b.regionsFrom shape start)
      else findIn v start (b.regionsFrom shape start)
    match found with
    | some x => .ok x
    | none => .error .bitNotFound

/-! ### Ranges -/

/-- The loop that sets the bits of a run of `count` bits from `nr` on. -/
def Region.setRun (r : Region) (nr : Nat) : Nat → Region
  | 0 => r
  | count + 1 => (r.change true nr).setRun (nr + 1) count

/-- `alloc_range_func` over the regions: the first bit, the number of bits and the regions. -/
def allocRangeIn (min len : Nat) : List Region → Option (Nat × Nat × List Region)
  | [] => none
  | r :: rest =>
    let free : Int := r.brValidBits - r.brSetBits
    let run := if 0 ≤ free ∧ free < min then none
      else searchRun r.brBitmap r.brTotalBits min len (r.brTotalBits + 1) r.brBitmapStart none
    match run with
    | some (start, stop) => some (r.brStartBit + start - r.brBitmapStart, stop - start,
        r.setRun start (stop - start) :: rest)
    | none => (allocRangeIn min len rest).map fun x => (x.1, x.2.1, r :: x.2.2)

/-- `ocfs2_bitmap_alloc_range`. -/
def allocRange (min len : Nat) (b : Bitmap) : Except BitmapError (Nat × Nat) × Bitmap :=
  if min = 0 ∨ len = 0 ∨ b.bTotalBits ≤ len ∨ len < min then (.error .invalidArgument, b)
  else
    match allocRangeIn min len b.regions with
    | some (firstBit, bitsFound, l) => (.ok (firstBit, bitsFound), { b with regions := l })
    | none => (.error .bitNotFound, b)

/-- The loop of `ocfs2_bitmap_clear_range_generic`. -/
def clearRun (i : Nat) : Nat → Nat → Bitmap → Option Bitmap
  | 0, _, b => some b
  | count + 1, bitno, b => (changeShared false i bitno b).bind fun r =>
      clearRun i count (bitno + 1) r.2

/-- `ocfs2_bitmap_clear_range`. -/
def clearRange (len firstBit : Nat) (b : Bitmap) : Result Unit :=
  if len = 0 ∨ b.bTotalBits < (len + firstBit) % 2 ^ 64 then some (.error .invalidArgument, b)
  else
    match (b.search shape firstBit len).1 with
    | none => some (.error .invalidBit, b)
    | some i =>
      (clearRun i ((firstBit + len) % 2 ^ 64 - firstBit) firstBit b).map fun b' => (.ok (), b')

/-! ### Cluster bitmaps -/

/-- The loop of `ocfs2_cluster_bitmap_new`. -/
def clusterRegions (numBits maxBits : Nat) : Nat → Nat → Bitmap → Except BitmapError Bitmap
  | 0, _, b => .ok b
  | fuel + 1, bitoff, b =>
    if bitoff < numBits then
      let allocBits := if maxBits < numBits then maxBits else numBits
      match insertRegion shape .cluster (allocRegion bitoff 0 allocBits) b with
      | (.error e, _) => .error e
      | (.ok (), b') => clusterRegions numBits maxBits fuel (bitoff + allocBits) b'
    else .ok b

/-- `ocfs2_cluster_bitmap_new`. -/
def clusterBitmapNew (fs : Filesys) (fsClusters : Nat) : Except BitmapError Bitmap :=
  clusterRegions shape fsClusters (intMax - (fs.fsClustersize - 1)) (fsClusters + 1) 0
    ⟨fsClusters, 0, []⟩

end Bitmap

end Ocfs2Tools
